import FileIndexer.Foundation.Paging
import FileIndexer.Foundation.Runs
import FileIndexer.Service.Indexer.Preview
import FileIndexer.Service.Indexer.Results
import FileIndexer.Storage.Bucket

namespace FileIndexer

def minAge : Time := 60 * 60 * 1000000000

structure PreviewWorld (β : Type) where
  db : IndexDb PreviewRow
  bucket : Bucket β
  now : Time

def listIndexPreviewKeys (results : Results PreviewRow) : List Key :=
  results.entries.map fun e => e.2.previewKey

structure GcWalk where
  claimed : List Key
  cutoff : Time
  after : Option Key
  orphans : List Key

inductive GcRun where
  | listIndexPreviewKeys
  | now (claimed : List Key)
  | walk (walk : GcWalk)
  | deleteMany (orphans : List Key)
  | finished

inductive GcAction where
  | call (pageSize : Nat)
  | deleteObject (n : Nat) (fault : Bool)
  | fail
  deriving DecidableEq, Repr

def isOrphan (previewPrefix : Key) (w : GcWalk) (info : ObjectInfo) : Bool :=
  previewPrefix.isPrefixOf info.key && info.key ∉ w.claimed && ¬w.cutoff < info.lastModified

def deleting (orphans : List Key) : GcRun :=
  if orphans = [] then .finished else .deleteMany orphans

section Step

variable {β : Type}

def GcWalk.visit (previewPrefix : Key) (w : GcWalk) (page : List ObjectInfo) : GcWalk :=
  { w with
    after := Paging.next ObjectInfo.key w.after page
    orphans := w.orphans ++ (page.filter (isOrphan previewPrefix w)).map ObjectInfo.key }

def gcStep (previewPrefix : Key) (w : PreviewWorld β) :
    GcRun → GcAction → Option (PreviewWorld β × GcRun)
  | .listIndexPreviewKeys, .call _ => some (w, .now (listIndexPreviewKeys w.db.results))
  | .now claimed, .call _ => some (w, .walk ⟨claimed, w.now - minAge, none, []⟩)
  | .walk c, .call pageSize =>
    let page := Paging.page ObjectInfo.key c.after pageSize w.bucket.objects
    let c' := c.visit previewPrefix page
    if Paging.isTruncated ObjectInfo.key c.after pageSize w.bucket.objects then some (w, .walk c')
    else some (w, deleting c'.orphans)
  | .deleteMany orphans, .deleteObject n fault =>
    match orphans[n]? with
    | none => none
    | some key =>
      some (if fault then w else { w with bucket := w.bucket.delete key },
        deleting (orphans.eraseIdx n))
  | .listIndexPreviewKeys, .fail | .walk _, .fail => some (w, .finished)
  | _, _ => none

end Step

def GcRun.targets : GcRun → List Key
  | .walk c => c.orphans
  | .deleteMany orphans => orphans
  | _ => []

@[simp] theorem targets_deleting (orphans : List Key) : (deleting orphans).targets = orphans := by
  unfold deleting
  split
  · rename_i h
    exact h.symm
  · rfl

theorem deleting_ne_now {orphans claimed : List Key} : deleting orphans ≠ .now claimed := by
  unfold deleting
  split <;> nofun

theorem deleting_ne_walk {orphans : List Key} {c : GcWalk} : deleting orphans ≠ .walk c := by
  unfold deleting
  split <;> nofun

theorem isOrphan_iff {previewPrefix : Key} {c : GcWalk} {info : ObjectInfo} :
    isOrphan previewPrefix c info = true ↔ previewPrefix <+: info.key ∧ info.key ∉ c.claimed ∧
      info.lastModified ≤ c.cutoff := by
  simp [isOrphan, and_assoc]

section Inversion

variable {β : Type} {previewPrefix : Key}

inductive GcStep (previewPrefix : Key) (w : PreviewWorld β) : GcRun → PreviewWorld β → GcRun → Prop
  | listed : GcStep previewPrefix w .listIndexPreviewKeys w (.now (listIndexPreviewKeys w.db.results))
  | clock {claimed} : GcStep previewPrefix w (.now claimed) w
      (.walk ⟨claimed, w.now - minAge, none, []⟩)
  | walked {c : GcWalk} {page} : (∀ info ∈ page, info ∈ w.bucket.objects) →
      GcStep previewPrefix w (.walk c) w (.walk (c.visit previewPrefix page))
  | collected {c : GcWalk} {page} : (∀ info ∈ page, info ∈ w.bucket.objects) →
      GcStep previewPrefix w (.walk c) w (deleting (c.visit previewPrefix page).orphans)
  | deleted {orphans : List Key} {n key} : orphans[n]? = some key →
      GcStep previewPrefix w (.deleteMany orphans) { w with bucket := w.bucket.delete key }
        (deleting (orphans.eraseIdx n))
  | kept {orphans : List Key} {n} :
      GcStep previewPrefix w (.deleteMany orphans) w (deleting (orphans.eraseIdx n))
  | failed {r} : GcStep previewPrefix w r w .finished

theorem gcStep_of_step {w w' : PreviewWorld β} {r r' : GcRun} {a : GcAction}
    (h : gcStep previewPrefix w r a = some (w', r')) : GcStep previewPrefix w r w' r' := by
  cases r with
  | listIndexPreviewKeys =>
    cases a with
    | call pageSize => cases h; exact .listed
    | deleteObject n fault => cases h
    | fail => cases h; exact .failed
  | now claimed =>
    cases a with
    | call pageSize => cases h; exact .clock
    | deleteObject n fault => cases h
    | fail => cases h
  | walk c =>
    cases a with
    | call pageSize =>
      have hpage : ∀ info ∈ Paging.page ObjectInfo.key c.after pageSize w.bucket.objects,
          info ∈ w.bucket.objects :=
        fun info hi => (Paging.mem_remaining.mp (List.mem_of_mem_take hi)).1
      simp only [gcStep] at h
      split at h
      · cases h; exact .walked hpage
      · cases h; exact .collected hpage
    | deleteObject n fault => cases h
    | fail => cases h; exact .failed
  | deleteMany orphans =>
    cases a with
    | call pageSize => cases h
    | deleteObject n fault =>
      simp only [gcStep] at h
      split at h
      · cases h
      · rename_i key hkey
        cases fault with
        | true => cases h; exact .kept
        | false => cases h; exact .deleted hkey
    | fail => cases h
  | finished => cases h

theorem mem_visit {c : GcWalk} {page : List ObjectInfo} {key : Key}
    (h : key ∈ (c.visit previewPrefix page).orphans) :
    key ∈ c.orphans ∨ ∃ info ∈ page, isOrphan previewPrefix c info = true ∧ info.key = key := by
  simpa [GcWalk.visit, and_assoc] using h

theorem targets_of_gcStep {w w' : PreviewWorld β} {r r' : GcRun}
    (h : GcStep previewPrefix w r w' r') {key : Key} (hkey : key ∈ r'.targets) :
    key ∈ r.targets ∨ ∃ c info, r = .walk c ∧ info ∈ w.bucket.objects ∧
      isOrphan previewPrefix c info = true ∧ info.key = key := by
  cases h with
  | listed => cases hkey
  | clock => cases hkey
  | walked hpage =>
    rcases mem_visit hkey with h | ⟨info, hi, ho, rfl⟩
    · exact Or.inl h
    · exact Or.inr ⟨_, info, rfl, hpage info hi, ho, rfl⟩
  | collected hpage =>
    rw [targets_deleting] at hkey
    rcases mem_visit hkey with h | ⟨info, hi, ho, rfl⟩
    · exact Or.inl h
    · exact Or.inr ⟨_, info, rfl, hpage info hi, ho, rfl⟩
  | deleted hdel =>
    rw [targets_deleting] at hkey
    exact Or.inl (List.mem_of_mem_eraseIdx hkey)
  | kept =>
    rw [targets_deleting] at hkey
    exact Or.inl (List.mem_of_mem_eraseIdx hkey)
  | failed => cases hkey

theorem world_of_gcStep {w w' : PreviewWorld β} {r r' : GcRun}
    (h : GcStep previewPrefix w r w' r') :
    w' = w ∨ ∃ key ∈ r.targets, w' = { w with bucket := w.bucket.delete key } := by
  cases h with
  | deleted hkey => exact Or.inr ⟨_, List.mem_of_getElem? hkey, rfl⟩
  | _ => exact Or.inl rfl

theorem now_of_gcStep {w w' : PreviewWorld β} {r r' : GcRun} {claimed : List Key}
    (h : GcStep previewPrefix w r w' r') (hr : r' = .now claimed) :
    claimed = listIndexPreviewKeys w.db.results := by
  cases h with
  | listed => exact (GcRun.now.inj hr).symm
  | clock => cases hr
  | walked _ => cases hr
  | collected _ => exact absurd hr deleting_ne_now
  | deleted _ => exact absurd hr deleting_ne_now
  | kept => exact absurd hr deleting_ne_now
  | failed => cases hr

theorem walk_of_gcStep {w w' : PreviewWorld β} {r r' : GcRun} {c' : GcWalk}
    (h : GcStep previewPrefix w r w' r') (hr : r' = .walk c') : w' = w ∧
      ((r = .now c'.claimed ∧ c'.cutoff = w.now - minAge) ∨
        ∃ c, r = .walk c ∧ c'.claimed = c.claimed ∧ c'.cutoff = c.cutoff) := by
  cases h with
  | listed => cases hr
  | clock => cases hr; exact ⟨rfl, Or.inl ⟨rfl, rfl⟩⟩
  | walked _ => cases hr; exact ⟨rfl, Or.inr ⟨_, rfl, rfl, rfl⟩⟩
  | collected _ => exact absurd hr deleting_ne_walk
  | deleted _ => exact absurd hr deleting_ne_walk
  | kept => exact absurd hr deleting_ne_walk
  | failed => cases hr

end Inversion

end FileIndexer
