import FileIndexer.Foundation.Runs
import FileIndexer.Service.Files.MoveFile

namespace FileIndexer

structure Uploads (β : Type) where
  world : World β Unit
  mover : MoveState
  statted : List (Key × Time)
  own : List Key

inductive UploadsAction (β : Type) where
  | move (fault : Fault)
  | put (key : Key) (bytes : β)
  | statUpload (key : Key)
  | upsertUpload (n : Nat)
  | tick (d : Nat)

inductive StorageRequest where
  | copy (srcKey dstKey : Key)
  | delete (key : Key)
  deriving DecidableEq, Repr

def MoveState.request (req : MoveFileRequest) : MoveState → Option StorageRequest
  | .copy _ currentOldKey => some (.copy currentOldKey req.destinationKey)
  | .rollbackDelete _ _ => some (.delete req.destinationKey)
  | .deleteOld _ currentOldKey _ => some (.delete currentOldKey)
  | _ => none

def MoveState.sent (req : MoveFileRequest) (fault : Fault) (m : MoveState) : Option StorageRequest :=
  if fault = .before then none else m.request req

section Step

variable {β : Type}

def Bucket.serve (b : Bucket β) (now : Time) : Option StorageRequest → Bucket β
  | none => b
  | some (.copy srcKey dstKey) => (b.copy now srcKey dstKey).toOption.getD b
  | some (.delete key) => b.delete key

-- own holds the keys whose object the move itself copied from or copied to
def ownAfter (b : Bucket β) (own : List Key) : Option StorageRequest → List Key
  | some (.copy srcKey dstKey) => if (b.lookup srcKey).isSome then [srcKey, dstKey] else own
  | _ => own

def statUploadedKey {ι : Type} (indexPrefix : Key) (w : World β ι) (key : Key) :
    Option (Key × Time) :=
  match validateUploadKey indexPrefix key with
  | .error _ => none
  | .ok key => (w.bucket.lookup key).map fun o => (key, o.lastModified)

def indexUploadedKey {ι : Type} (w : World β ι) (row : Key × Time) : Option (World β ι) :=
  match w.db.upsertFilesWithDirectories w.now [row] with
  | .error _ => none
  | .ok (_, db) => some { w with db }

def Uploads.step (indexPrefix : Key) (req : MoveFileRequest) (s : Uploads β) :
    UploadsAction β → Option (Uploads β)
  | .move fault =>
    (moveFileStep indexPrefix req () fault s.world s.mover).map fun (w, m) =>
      { s with world := w, mover := m, own := ownAfter s.world.bucket s.own (s.mover.sent req fault) }
  | .put key bytes =>
    match validateUploadKey indexPrefix key with
    | .error _ => none
    | .ok key => some { s with
        world := { s.world with bucket := s.world.bucket.put s.world.now key bytes }
        own := s.own.filter (· ≠ key) }
  | .statUpload key => (statUploadedKey indexPrefix s.world key).map fun row =>
      { s with statted := s.statted ++ [row] }
  | .upsertUpload n =>
    match s.statted[n]? with
    | none => none
    | some row => (indexUploadedKey s.world row).map fun w =>
        { s with world := w, statted := s.statted.eraseIdx n }
  | .tick d => some { s with world := { s.world with now := s.world.now + d } }

def Allowed (req : MoveFileRequest) (s : Uploads β) : Option StorageRequest → Prop
  | none => True
  | some (.copy srcKey dstKey) =>
    (s.world.cell srcKey).owner = some req.id ∧ s.world.bucket.lookup dstKey = none
  | some (.delete key) =>
    key ∈ s.own ∧ ((s.world.cell key).owner = none ∨ (s.world.cell key).owner = some req.id)

def Harmless (indexPrefix : Key) (req : MoveFileRequest) (s : Uploads β) : UploadsAction β → Prop
  | .move fault => Allowed req s (s.mover.sent req fault) ∧
      ∀ t, s.step indexPrefix req (.move fault) = some t →
        t.world.bucket = s.world.bucket.serve s.world.now (s.mover.sent req fault)
  | _ => True

def MoveState.unsettled (req : MoveFileRequest) : MoveState → List Key
  | .copy _ _ => [req.destinationKey]
  | .moveFileWithDirectories _ currentOldKey => [currentOldKey, req.destinationKey]
  | .rollbackDelete _ _ => [req.destinationKey]
  | .deleteOld _ currentOldKey _ => [currentOldKey]
  | _ => []

def MoveState.rechecks : MoveState → Bool
  | .getFileByKeyLocked _ _ => true
  | _ => false

def Undisturbed (req : MoveFileRequest) (s : Uploads β) : UploadsAction β → Prop
  | .move _ => s.mover.rechecks = true → (s.world.cell req.destinationKey).owner = none →
      s.world.bucket.lookup req.destinationKey = none
  | .put key _ => key ∉ s.mover.unsettled req
  | .upsertUpload n => ∀ row, s.statted[n]? = some row → row.1 ∈ s.mover.unsettled req →
      (s.world.cell row.1).owner = some req.id
  | _ => True

def Untouched (req : MoveFileRequest) (w : World β Unit) (own : List Key) : MoveState → Prop
  | .getFileByKeyLocked _ cur => (w.cell cur).owner = some req.id
  | .copy _ cur => (w.cell cur).owner = some req.id ∧ (w.cell req.destinationKey).owner = none ∧
      w.bucket.lookup req.destinationKey = none
  | .moveFileWithDirectories _ cur => (w.cell cur).owner = some req.id ∧
      (w.cell req.destinationKey).owner = none ∧ cur ∈ own ∧ req.destinationKey ∈ own
  | .rollbackDelete _ _ => req.destinationKey ∈ own ∧
      ((w.cell req.destinationKey).owner = none ∨ (w.cell req.destinationKey).owner = some req.id)
  | .deleteOld _ cur _ => cur ∈ own ∧ (w.cell cur).owner = none
  | _ => True

end Step

section Invariant

variable {β : Type} {indexPrefix : Key} {req : MoveFileRequest}

theorem serve_idle {m : MoveState} (hm : m.request req = none) (fault : Fault) (b : Bucket β)
    (now : Time) : b.serve now (m.sent req fault) = b := by
  simp [MoveState.sent, hm, Bucket.serve]

theorem serve_failed (m : MoveState) (b : Bucket β) (now : Time) :
    b.serve now (m.sent req .before) = b := by
  simp [MoveState.sent, Bucket.serve]

theorem sent_of_ne {fault : Fault} (hf : fault ≠ .before) (m : MoveState) :
    m.sent req fault = m.request req := by
  simp [MoveState.sent, hf]

theorem serve_copied {ι : Type} {fault : Fault} (hf : fault ≠ .before) {w : World β ι} {old cur : Key}
    {o : Object β} (ho : w.bucket.lookup cur = some o) :
    w.bucket.serve w.now ((MoveState.copy old cur).sent req fault) =
      w.bucket.put w.now req.destinationKey o.bytes := by
  rw [sent_of_ne hf]
  simp [MoveState.request, Bucket.serve, Bucket.copy, ho, Except.toOption]

theorem serve_copyFailed {ι : Type} {fault : Fault} {w : World β ι} {old cur : Key}
    (h : fault = .before ∨ w.bucket.lookup cur = none) :
    w.bucket.serve w.now ((MoveState.copy old cur).sent req fault) = w.bucket := by
  by_cases hf : fault = .before
  · rw [hf, serve_failed]
  · rw [sent_of_ne hf]
    simp [MoveState.request, Bucket.serve, Bucket.copy, h.resolve_left hf, Except.toOption]

theorem bucket_of_moveStep {ι : Type} [DecidableEq ι] {me : ι} {fault : Fault} {w w' : World β ι}
    {m m' : MoveState} (h : MoveStep indexPrefix req me fault w m w' m') :
    w'.bucket = w.bucket.serve w.now (m.sent req fault) := by
  cases h with
  | refused e hm => rcases hm with rfl | ⟨old, rfl⟩ <;> exact (serve_idle rfl _ _ _).symm
  | read _ _ => exact (serve_idle rfl _ _ _).symm
  | vacant _ => exact (serve_idle rfl _ _ _).symm
  | lockFailed e => exact (serve_idle rfl _ _ _).symm
  | lockedAll => exact (serve_idle rfl _ _ _).symm
  | locked _ => exact (serve_idle rfl _ _ _).symm
  | reread _ => exact (serve_idle rfl _ _ _).symm
  | recheck _ => exact (serve_idle rfl _ _ _).symm
  | abandoned e hm =>
    rcases hm with rfl | ⟨cur, rfl⟩ <;> exact (serve_idle rfl _ _ _).symm
  | copyFailed e hc => exact (serve_copyFailed hc).symm
  | copied ho hf => exact (serve_copied (by simp [hf]) ho).symm
  | copyLost e ho hf => exact (serve_copied (by simp [hf]) ho).symm
  | moved _ _ => exact (serve_idle rfl _ _ _).symm
  | movedLost _ _ => exact (serve_idle rfl _ _ _).symm
  | conflict e _ => exact (serve_idle rfl _ _ _).symm
  | moveFailed e _ => exact (serve_idle rfl _ _ _).symm
  | rolledBack e =>
    by_cases hf : fault = .before
    · rw [hf, serve_failed]
      rfl
    · rw [sent_of_ne hf, if_neg hf]
      rfl
  | cleaned =>
    by_cases hf : fault = .before
    · rw [hf, serve_failed]
      rfl
    · rw [sent_of_ne hf, if_neg hf]
      rfl
  | released _ => exact (serve_idle rfl _ _ _).symm
  | answered => exact (serve_idle rfl _ _ _).symm

theorem ownAfter_copied {fault : Fault} (hf : fault ≠ .before) {w : World β Unit} {own : List Key}
    {old cur : Key} {o : Object β} (ho : w.bucket.lookup cur = some o) :
    ownAfter w.bucket own ((MoveState.copy old cur).sent req fault) =
      [cur, req.destinationKey] := by
  rw [sent_of_ne hf]
  simp [MoveState.request, ownAfter, ho]

theorem ownAfter_of_ne_copy {m : MoveState} (hm : ∀ old cur, m ≠ .copy old cur) (fault : Fault)
    (b : Bucket β) (own : List Key) : ownAfter b own (m.sent req fault) = own := by
  unfold MoveState.sent
  split
  · rfl
  · cases m with
    | copy old cur => exact absurd rfl (hm old cur)
    | _ => rfl

theorem allowed_of_untouched {s : Uploads β} (h : Untouched req s.world s.own s.mover)
    (fault : Fault) : Allowed req s (s.mover.sent req fault) := by
  unfold MoveState.sent
  split
  · trivial
  · cases hm : s.mover with
    | copy old cur =>
      simp only [hm, Untouched] at h
      exact ⟨h.1, h.2.2⟩
    | rollbackDelete old e =>
      simp only [hm, Untouched] at h
      exact h
    | deleteOld old cur f =>
      simp only [hm, Untouched] at h
      exact ⟨h.1, Or.inl h.2⟩
    | _ => trivial

theorem untouched_move {fault : Fault} {w w' : World β Unit} {m m' : MoveState} {own : List Key}
    (hstep : MoveStep indexPrefix req () fault w m w' m') (h : Untouched req w own m)
    (hclear : m.rechecks = true → (w.cell req.destinationKey).owner = none →
      w.bucket.lookup req.destinationKey = none) :
    Untouched req w' (ownAfter w.bucket own (m.sent req fault)) m' := by
  cases hstep with
  | refused e hm => trivial
  | read hf hv => trivial
  | vacant hv => trivial
  | lockFailed e => trivial
  | lockedAll => trivial
  | locked hfree => trivial
  | reread hf => exact World.owner_of_getFile hf
  | recheck hv =>
    have hvac := World.getFileByKey_eq_none_iff.mp hv
    exact ⟨h, hvac, hclear rfl hvac⟩
  | abandoned e hm => trivial
  | copyFailed e hc => trivial
  | copied ho hf =>
    obtain ⟨hcur, hvac, -⟩ := h
    rw [ownAfter_copied (by simp [hf]) ho]
    exact ⟨hcur, hvac, by simp, by simp⟩
  | copyLost e ho hf => trivial
  | moved hdb hf =>
    rename_i old cur f db
    obtain ⟨hcur, hvac, hown, -⟩ := h
    have hne : cur ≠ req.destinationKey := World.ne_of_vacant hcur hvac
    rw [ownAfter_of_ne_copy (by simp)]
    refine ⟨hown, ?_⟩
    rw [World.cell_move hdb hcur]
    simp [hne]
  | movedLost hdb hf =>
    obtain ⟨hcur, hvac, -, hown⟩ := h
    rw [ownAfter_of_ne_copy (by simp)]
    refine ⟨hown, Or.inr ?_⟩
    rw [World.cell_move hdb hcur]
    simp
  | conflict e he => trivial
  | moveFailed e he =>
    obtain ⟨-, hvac, -, hown⟩ := h
    rw [ownAfter_of_ne_copy (by simp)]
    exact ⟨hown, Or.inl hvac⟩
  | rolledBack e => trivial
  | cleaned => trivial
  | released hm => rcases hm with ⟨f, rfl⟩ | ⟨e, rfl⟩ <;> trivial
  | answered => trivial

theorem untouched_put {w : World β Unit} {m : MoveState} {own : List Key} {key : Key} {bytes : β}
    (h : Untouched req w own m) (hkey : key ∉ m.unsettled req) :
    Untouched req { w with bucket := w.bucket.put w.now key bytes } (own.filter (· ≠ key)) m := by
  have howner (k : Key) :
      (World.cell { w with bucket := w.bucket.put w.now key bytes } k).owner = (w.cell k).owner := rfl
  cases m with
  | copy old cur =>
    have hne : req.destinationKey ≠ key := by simpa [MoveState.unsettled, eq_comm] using hkey
    obtain ⟨hcur, hvac, hnone⟩ := h
    refine ⟨hcur, hvac, ?_⟩
    simp [hne, hnone]
  | moveFileWithDirectories old cur =>
    simp only [MoveState.unsettled, List.mem_cons, List.not_mem_nil, or_false, not_or] at hkey
    obtain ⟨hcur, hvac, hsrc, hdst⟩ := h
    exact ⟨hcur, hvac, by simp [hsrc, Ne.symm hkey.1], by simp [hdst, Ne.symm hkey.2]⟩
  | rollbackDelete old e =>
    have hne : req.destinationKey ≠ key := by simpa [MoveState.unsettled, eq_comm] using hkey
    exact ⟨by simp [h.1, hne], h.2⟩
  | deleteOld old cur f =>
    have hne : cur ≠ key := by simpa [MoveState.unsettled, eq_comm] using hkey
    exact ⟨by simp [h.1, hne], h.2⟩
  | getFileByKeyLocked old cur => exact h
  | _ => trivial

theorem indexUploadedKey_some {ι : Type} {w w' : World β ι} {row : Key × Time}
    (h : indexUploadedKey w row = some w') :
    ∃ n db, w.db.upsertFilesWithDirectories w.now [row] = .ok (n, db) ∧ w' = { w with db } := by
  unfold indexUploadedKey at h
  split at h
  · cases h
  · rename_i n db hdb
    exact ⟨n, db, hdb, (Option.some.inj h).symm⟩

theorem untouched_upsert {w : World β Unit} {m : MoveState} {own : List Key} {row : Key × Time}
    {n : Nat} {db : Db} (h : Untouched req w own m)
    (hkey : row.1 ∈ m.unsettled req → (w.cell row.1).owner = some req.id)
    (hdb : w.db.upsertFilesWithDirectories w.now [row] = .ok (n, db)) :
    Untouched req { w with db } own m := by
  have hcell (k : Key) (hk : k ≠ row.1 ∨ (w.cell k).owner ≠ none) :
      (World.cell { w with db } k).owner = (w.cell k).owner := by
    simp only [World.cell, (Db.upsertFilesWithDirectories_ok hdb).1]
    exact Files.ownerAt_upsertFiles (hk.imp_left fun hne hm => hne (by simpa using hm))
  have hsome (k : Key) (hk : (w.cell k).owner = some req.id) :
      (World.cell { w with db } k).owner = some req.id := by
    rw [hcell k (Or.inr (by simp [hk])), hk]
  have hnone (k : Key) (hk : (w.cell k).owner = none) (hm : k ∈ m.unsettled req) :
      (World.cell { w with db } k).owner = none := by
    have hne : k ≠ row.1 := by
      rintro rfl
      rw [hkey hm] at hk
      cases hk
    rw [hcell k (Or.inl hne), hk]
  cases m with
  | copy old cur =>
    obtain ⟨hcur, hvac, hobject⟩ := h
    exact ⟨hsome _ hcur, hnone _ hvac (by simp [MoveState.unsettled]), hobject⟩
  | moveFileWithDirectories old cur =>
    obtain ⟨hcur, hvac, hown⟩ := h
    exact ⟨hsome _ hcur, hnone _ hvac (by simp [MoveState.unsettled]), hown⟩
  | rollbackDelete old e =>
    obtain ⟨hown, hvac | hmoved⟩ := h
    · exact ⟨hown, Or.inl (hnone _ hvac (by simp [MoveState.unsettled]))⟩
    · exact ⟨hown, Or.inr (hsome _ hmoved)⟩
  | deleteOld old cur f =>
    obtain ⟨hown, hvac⟩ := h
    exact ⟨hown, hnone _ hvac (by simp [MoveState.unsettled])⟩
  | getFileByKeyLocked old cur => exact hsome _ h
  | _ => trivial

theorem untouched_preserved : Transition.Preserves (Uploads.step indexPrefix req)
    (Undisturbed req) (fun s : Uploads β => Untouched req s.world s.own s.mover) := by
  intro s a t hs hok ht
  cases a with
  | move fault =>
    obtain ⟨⟨w, m⟩, hwm, rfl⟩ := Option.map_eq_some_iff.mp ht
    exact untouched_move (moveStep_of_step hwm) hs hok
  | put key bytes =>
    simp only [Uploads.step] at ht
    split at ht
    · cases ht
    · rename_i k hk
      obtain ⟨rfl, -⟩ := validateUploadKey_ok_iff.mp hk
      cases ht
      exact untouched_put hs hok
  | statUpload key =>
    obtain ⟨row, -, rfl⟩ := Option.map_eq_some_iff.mp ht
    exact hs
  | upsertUpload n =>
    simp only [Uploads.step] at ht
    split at ht
    · cases ht
    · rename_i row hrow
      obtain ⟨w, hw, rfl⟩ := Option.map_eq_some_iff.mp ht
      obtain ⟨x, db, hdb, rfl⟩ := indexUploadedKey_some hw
      exact untouched_upsert hs (hok row hrow) hdb
  | tick d =>
    obtain rfl := Option.some.inj ht
    cases hm : s.mover <;> simp only [hm] at hs ⊢ <;> exact hs

theorem move_loses_no_object (s : Uploads β) (hs : s.mover = .getFile)
    (as : List (UploadsAction β))
    (hok : Transition.EveryStep (Uploads.step indexPrefix req) (Undisturbed req) s as) :
    Transition.EveryStep (Uploads.step indexPrefix req) (Harmless indexPrefix req) s as := by
  refine Transition.everyStep_of_preserves untouched_preserved ?_ as ?_ hok
  · intro s a t hs _ _
    cases a with
    | move fault =>
      refine ⟨allowed_of_untouched hs fault, fun t ht => ?_⟩
      obtain ⟨⟨w, m⟩, hwm, rfl⟩ := Option.map_eq_some_iff.mp ht
      exact bucket_of_moveStep (moveStep_of_step hwm)
    | _ => trivial
  · rw [hs]
    trivial

end Invariant

section Runs

instance bucketDecidableEq (b c : Bucket String) : Decidable (b = c) :=
  decidable_of_iff (b.entries = c.entries) AList.ext_iff.symm

instance allowedDecidable (req : MoveFileRequest) (s : Uploads String) :
    (r : Option StorageRequest) → Decidable (Allowed req s r)
  | none => isTrue trivial
  | some (.copy _ _) => inferInstanceAs (Decidable (_ ∧ _ = none))
  | some (.delete _) => inferInstanceAs (Decidable (_ ∧ _))

instance harmlessDecidable (indexPrefix : Key) (req : MoveFileRequest) (s : Uploads String) :
    (a : UploadsAction String) → Decidable (Harmless indexPrefix req s a)
  | .move fault => inferInstanceAs (Decidable (_ ∧ ∀ t ∈ s.step indexPrefix req (.move fault), _ = _))
  | .put _ _ | .statUpload _ | .upsertUpload _ | .tick _ => isTrue trivial

instance undisturbedDecidable (req : MoveFileRequest) (s : Uploads String) :
    (a : UploadsAction String) → Decidable (Undisturbed req s a)
  | .move _ => inferInstanceAs (Decidable (_ → _ → _ = none))
  | .put _ _ => inferInstanceAs (Decidable (_ ∉ _))
  | .upsertUpload n => inferInstanceAs (Decidable (∀ row ∈ s.statted[n]?, _))
  | .statUpload _ | .tick _ => isTrue trivial

def oneFile : Uploads String where
  world :=
    { db := ⟨⟨[⟨1, ascii "A", 0, 0, 0⟩], 2, by decide, by decide, by decide⟩, ∅⟩
      previewKeys _ := none
      bucket := (∅ : Bucket String).put 0 (ascii "A") "photo"
      locks _ := none
      now := 0 }
  mover := .getFile
  statted := []
  own := []

def moves (n : Nat) : List (UploadsAction String) := List.replicate n (.move .none)

theorem uncommitted_upload_overwritten : oneFile.mover = .getFile ∧
    ¬Transition.EveryStep (Uploads.step (ascii ".index/") ⟨1, ascii "B"⟩)
      (Harmless (ascii ".index/") ⟨1, ascii "B"⟩) oneFile (.put (ascii "B") "upload" :: moves 12) :=
  ⟨rfl, by decide⟩

theorem move_loses_no_object_uploading :
    Transition.EveryStep (Uploads.step (ascii ".index/") ⟨1, ascii "B"⟩)
      (Harmless (ascii ".index/") ⟨1, ascii "B"⟩) oneFile
      (UploadsAction.put (ascii "C") "upload" :: moves 8 ++ [UploadsAction.move .before,
        UploadsAction.statUpload (ascii "C"), UploadsAction.move .none,
        UploadsAction.upsertUpload 0] ++ moves 1) :=
  move_loses_no_object _ rfl _ (by decide)

end Runs

end FileIndexer
