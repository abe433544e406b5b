import FileIndexer.Service.Crawler.Reconcile

namespace FileIndexer

structure Moving (β ι : Type) where
  world : World β ι
  mover : MoveState

inductive MovingAction where
  | step (fault : Fault)
  | tick (d : Nat)

section System

variable {β ι : Type} [DecidableEq ι] (indexPrefix : Key) (req : MoveFileRequest) (me : ι)

def Moving.step (s : Moving β ι) : MovingAction → Option (Moving β ι)
  | .step fault => (moveFileStep indexPrefix req me fault s.world s.mover).map fun (w, m) => ⟨w, m⟩
  | .tick d => some { s with world := { s.world with now := s.world.now + d } }

structure World.Settled (w : World β ι) : Prop where
  owned : ∀ k, (w.cell k).owner ≠ none ↔ w.Listed indexPrefix k
  seen : ∀ f ∈ w.db.files.rows, f.seenAt ≤ w.now

def World.source (w : World β ι) : Option Key := (w.db.files.getFile req.id).map File.key

def MoveReconciled (before after : World β ι) : Except Failure FileInfo → Prop
  | .ok _ => ∃ old ∈ before.source req,
      after.bucket.bytesAt req.destinationKey = before.bucket.bytesAt old ∧
      ∀ k, (after.cell k).owner =
        if k = req.destinationKey then some req.id
        else if k = old then none
        else (before.cell k).owner
  | .error _ =>
      (∀ old ∈ before.source req, after.bucket.bytesAt old = before.bucket.bytesAt old ∧
        (after.cell old).owner ≠ none) ∧
      ∀ k, some k ≠ before.source req → (after.cell k).owner = (before.cell k).owner

def CleansUp (s : Moving β ι) : MovingAction → Prop
  | .step fault =>
    match s.mover with
    | .copy _ _ => fault ≠ .after
    | .rollbackDelete _ _ | .deleteOld _ _ _ => fault ≠ .before
    | .readBack _ => fault = .none
    | _ => True
  | .tick _ => True

end System

section Placed

variable {β ι : Type} {indexPrefix : Key} {req : MoveFileRequest} {me : ι} {w₀ w : World β ι}
  {old : Key} {src dst moved : Bool}

structure Admitted (indexPrefix : Key) (req : MoveFileRequest) (w₀ : World β ι) (old : Key) :
    Prop where
  source : (w₀.cell old).owner = some req.id
  stored : w₀.Listed indexPrefix old
  vacant : (w₀.cell req.destinationKey).owner = none
  unreserved : underPrefix indexPrefix req.destinationKey = false

def present {α : Type} (b : Bool) (a : Option α) : Option α := if b then a else none

-- src, dst: which of the two keys hold the content; moved: which of them the row names
def Placed (req : MoveFileRequest) (w₀ w : World β ι) (old : Key) (src dst moved : Bool) : Prop :=
  ∀ k, w.cell k =
    if k = req.destinationKey then
      ⟨present dst (w₀.cell old).bytes, present moved (some req.id)⟩
    else if k = old then ⟨present src (w₀.cell old).bytes, present (!moved) (some req.id)⟩
    else w₀.cell k

theorem listed_iff {k : Key} :
    w.Listed indexPrefix k ↔ (w.cell k).bytes ≠ none ∧ underPrefix indexPrefix k = false := by
  simp [World.Listed, World.cell, Bucket.bytesAt]

theorem source_eq_some_iff {k : Key} : w.source req = some k ↔ (w.cell k).owner = some req.id := by
  simp only [World.source, Option.map_eq_some_iff]
  constructor
  · rintro ⟨f, hf, rfl⟩
    exact World.owner_of_row hf
  · intro h
    obtain ⟨f, hf, hk⟩ := World.getFile_of_owner h
    exact ⟨f, hf, hk⟩

theorem id_of_move {db : Db} {f : File}
    (h : w.db.moveFileWithDirectories req.id req.destinationKey = .ok (f, db)) : f.id = req.id := by
  obtain ⟨old, hold, rfl, -, -⟩ := Db.moveFileWithDirectories_ok h
  exact (Files.getFile_eq_some_iff.mp hold).2

theorem Admitted.ne (h : Admitted indexPrefix req w₀ old) : old ≠ req.destinationKey :=
  World.ne_of_vacant h.source h.vacant

theorem Placed.at_dst (h : Placed req w₀ w old src dst moved) : w.cell req.destinationKey =
    ⟨present dst (w₀.cell old).bytes, present moved (some req.id)⟩ := by
  simpa using h req.destinationKey

theorem Placed.at_src (h : Placed req w₀ w old src dst moved) (hne : old ≠ req.destinationKey) :
    w.cell old = ⟨present src (w₀.cell old).bytes, present (!moved) (some req.id)⟩ := by
  simpa [hne] using h old

theorem Placed.elsewhere (h : Placed req w₀ w old src dst moved) {k : Key}
    (hdst : k ≠ req.destinationKey) (hsrc : k ≠ old) : w.cell k = w₀.cell k := by
  simpa [hdst, hsrc] using h k

theorem placed_of_copy {o : Object β} (ha : Admitted indexPrefix req w₀ old)
    (hw : ∀ k, w.cell k = w₀.cell k) (ho : w.bucket.lookup old = some o) :
    Placed req w₀ { w with bucket := w.bucket.put w.now req.destinationKey o.bytes } old
      true true false := by
  have hbytes : (w₀.cell old).bytes = some o.bytes := by
    rw [← hw old]
    simp [World.cell, Bucket.bytesAt, ho]
  intro k
  rw [World.cell_put, hw k]
  split_ifs with hdst hsrc
  · rw [hdst, ha.vacant, hbytes]
    rfl
  · rw [hsrc, ← ha.source]
    rfl
  · rfl

theorem Placed.move {db : Db} {f : File} (h : Placed req w₀ w old src dst false)
    (ha : Admitted indexPrefix req w₀ old)
    (hdb : w.db.moveFileWithDirectories req.id req.destinationKey = .ok (f, db)) :
    Placed req w₀ { w with db } old src dst true := by
  have howner : (w.cell old).owner = some req.id := by rw [h.at_src ha.ne]; rfl
  intro k
  rw [World.cell_move hdb howner, h k]
  split_ifs <;> rfl

theorem Placed.deleteDst (h : Placed req w₀ w old src dst moved) :
    Placed req w₀ { w with bucket := w.bucket.delete req.destinationKey } old src false moved := by
  intro k
  rw [World.cell_delete, h k]
  split_ifs <;> rfl

theorem Placed.deleteSrc (h : Placed req w₀ w old src dst moved)
    (ha : Admitted indexPrefix req w₀ old) :
    Placed req w₀ { w with bucket := w.bucket.delete old } old false dst moved := by
  intro k
  rw [World.cell_delete, h k]
  split_ifs with hsrc hdst
  · exact absurd (hsrc.symm.trans hdst) ha.ne
  · rfl
  · rfl
  · rfl

theorem Placed.no_conflict (h : Placed req w₀ w old src dst false) :
    w.db.moveFileWithDirectories req.id req.destinationKey ≠ .error .uniqueViolation := by
  intro hconflict
  rcases Db.moveFileWithDirectories_error hconflict with ⟨he, -⟩ | ⟨-, x, hx, hk⟩
  · cases he
  · have hvacant : (w.cell req.destinationKey).owner = none := by rw [h.at_dst]; rfl
    exact Files.ownerAt_eq_none_iff.mp hvacant x hx hk

end Placed

section Outcomes

variable {β ι : Type} {indexPrefix : Key} {req : MoveFileRequest} {w₀ w : World β ι}

def Unmoved (w₀ w : World β ι) : Prop := ∀ k, w.cell k = w₀.cell k

def Relocated (indexPrefix : Key) (req : MoveFileRequest) (w₀ w : World β ι) : Prop :=
  ∃ old, Admitted indexPrefix req w₀ old ∧ Placed req w₀ w old false true true

def Withdrawn (indexPrefix : Key) (req : MoveFileRequest) (w₀ w : World β ι) : Prop :=
  Unmoved w₀ w ∨ ∃ old moved, Admitted indexPrefix req w₀ old ∧ Placed req w₀ w old true false moved

theorem Unmoved.source (hw : Unmoved w₀ w) {f : FileInfo} (h : w.getFile req.id = some f) :
    (w₀.cell f.file.key).owner = some req.id := by
  rw [← hw]
  exact World.owner_of_getFile h

theorem Unmoved.vacant (hw : Unmoved w₀ w) (h : w.getFileByKey req.destinationKey = none) :
    (w₀.cell req.destinationKey).owner = none := by
  rw [← hw]
  exact World.getFileByKey_eq_none_iff.mp h

theorem Unmoved.stored (hw : Unmoved w₀ w) {old : Key} (hs : w₀.Listed indexPrefix old) :
    w.bucket.lookup old ≠ none := by
  have hbytes : (w.cell old).bytes ≠ none := hw old ▸ (listed_iff.mp hs).1
  simpa [World.cell, Bucket.bytesAt] using hbytes

theorem Relocated.getFile (h : Relocated indexPrefix req w₀ w) :
    ∃ f, w.getFile req.id = some f := by
  obtain ⟨old, -, hplaced⟩ := h
  have howner : (w.cell req.destinationKey).owner = some req.id := by rw [hplaced.at_dst]; rfl
  obtain ⟨f, hf, -⟩ := World.getFile_of_owner howner
  exact ⟨⟨f, w.previewKeys f.id⟩, by simp [World.getFile, hf]⟩

end Outcomes

section Invariant

variable {β ι : Type} [DecidableEq ι] {indexPrefix : Key} {req : MoveFileRequest} {me : ι}
  {w₀ : World β ι}

def Moving.Tidy (indexPrefix : Key) (req : MoveFileRequest) (w₀ : World β ι) (s : Moving β ι) :
    Prop :=
  match s.mover with
  | .getFile => Unmoved w₀ s.world
  | .getFileByKey _ | .acquireMoveLocks _ _ | .getFileLocked _ =>
    Unmoved w₀ s.world ∧ underPrefix indexPrefix req.destinationKey = false
  | .getFileByKeyLocked _ cur =>
    Unmoved w₀ s.world ∧ underPrefix indexPrefix req.destinationKey = false ∧
      (w₀.cell cur).owner = some req.id
  | .copy _ cur => Unmoved w₀ s.world ∧ Admitted indexPrefix req w₀ cur
  | .moveFileWithDirectories _ cur =>
    Admitted indexPrefix req w₀ cur ∧ Placed req w₀ s.world cur true true false
  | .rollbackDelete _ _ =>
    ∃ cur moved, Admitted indexPrefix req w₀ cur ∧ Placed req w₀ s.world cur true true moved
  | .deleteOld _ cur f =>
    f.id = req.id ∧ Admitted indexPrefix req w₀ cur ∧ Placed req w₀ s.world cur true true true
  | .release _ (.ok f) => f.id = req.id ∧ Relocated indexPrefix req w₀ s.world
  | .readBack id => id = req.id ∧ Relocated indexPrefix req w₀ s.world
  | .done (.ok _) => Relocated indexPrefix req w₀ s.world
  | .release _ (.error _) | .done (.error _) => Withdrawn indexPrefix req w₀ s.world

def Moving.Spoiled (indexPrefix : Key) (req : MoveFileRequest) (w₀ : World β ι) (s : Moving β ι) :
    Prop :=
  ∃ old src moved, Admitted indexPrefix req w₀ old ∧ Placed req w₀ s.world old src true moved ∧
    match s.mover with
    | .release _ (.ok _) | .readBack _ | .done (.ok _) => src = true
    | .release _ (.error _) | .done (.error _) => True
    | _ => False

theorem Moving.tidy_preserved (hw₀ : w₀.Settled indexPrefix) :
    Transition.Preserves (Moving.step indexPrefix req me) CleansUp
      (Moving.Tidy indexPrefix req w₀) := by
  intro s a t hs hok ht
  cases a with
  | tick d =>
    obtain rfl := Option.some.inj ht
    exact hs
  | step fault =>
    obtain ⟨⟨w', m'⟩, hwm, rfl⟩ := Option.map_eq_some_iff.mp ht
    obtain ⟨w, m⟩ := s
    have hstep := moveStep_of_step hwm
    cases hstep with
    | refused e hm =>
      rcases hm with rfl | ⟨old, rfl⟩
      · exact Or.inl hs
      · exact Or.inl hs.1
    | read hf hv => exact ⟨hs, unreserved_of_validate hv⟩
    | vacant hv => exact hs
    | lockFailed e => exact Or.inl hs.1
    | lockedAll => exact hs
    | locked hfree => exact hs
    | reread hf => exact ⟨hs.1, hs.2, hs.1.source hf⟩
    | recheck hv =>
      obtain ⟨hsame, hfree, howner⟩ := hs
      have hstored := (hw₀.owned _).mp (by rw [howner]; simp)
      exact ⟨hsame, howner, hstored, hsame.vacant hv, hfree⟩
    | abandoned e hm =>
      rcases hm with rfl | ⟨cur, rfl⟩
      · exact Or.inl hs.1
      · exact Or.inl hs.1
    | copyFailed e hf => exact Or.inl hs.1
    | copied ho hf => exact ⟨hs.2, placed_of_copy hs.2 hs.1 ho⟩
    | copyLost e ho hf => exact absurd hf hok
    | moved hdb hf => exact ⟨id_of_move hdb, hs.1, hs.2.move hs.1 hdb⟩
    | movedLost hdb hf => exact ⟨_, true, hs.1, hs.2.move hs.1 hdb⟩
    | conflict e hdb => exact absurd hdb hs.2.no_conflict
    | moveFailed e hf => exact ⟨_, false, hs.1, hs.2⟩
    | rolledBack e =>
      obtain ⟨cur, moved, ha, hplaced⟩ := hs
      rw [if_neg hok]
      exact Or.inr ⟨cur, moved, ha, hplaced.deleteDst⟩
    | cleaned =>
      obtain ⟨hid, ha, hplaced⟩ := hs
      rw [if_neg hok]
      exact ⟨hid, _, ha, hplaced.deleteSrc ha⟩
    | released hr =>
      rename_i old r
      cases r with
      | ok f => cases hwm; exact hs
      | error e => cases hwm; exact hs
    | answered =>
      obtain ⟨rfl, hrel⟩ := hs
      obtain ⟨f, hf⟩ := hrel.getFile
      obtain rfl : fault = .none := hok
      simp only [moveFileStep, hf] at hwm
      cases hwm
      exact hrel

theorem Moving.spoiled_of_left (s : Moving β ι) (a : MovingAction) (t : Moving β ι)
    (hs : s.Tidy indexPrefix req w₀) (hleft : ¬CleansUp s a)
    (ht : s.step indexPrefix req me a = some t) : t.Spoiled indexPrefix req w₀ := by
  cases a with
  | tick d => exact absurd trivial hleft
  | step fault =>
    obtain ⟨⟨w', m'⟩, hwm, rfl⟩ := Option.map_eq_some_iff.mp ht
    obtain ⟨w, m⟩ := s
    have hstep := moveStep_of_step hwm
    cases hstep with
    | refused e hm => rcases hm with rfl | ⟨old, rfl⟩ <;> exact absurd trivial hleft
    | abandoned e hm => rcases hm with rfl | ⟨cur, rfl⟩ <;> exact absurd trivial hleft
    | copyFailed e hf =>
      have hafter : fault = .after := not_not.mp hleft
      rcases hf with hbefore | hnone
      · exact absurd (hafter.symm.trans hbefore) (by decide)
      · exact absurd hnone (hs.1.stored hs.2.stored)
    | copied ho hf => exact absurd (not_not.mp hleft) (by simp [hf])
    | copyLost e ho hf => exact ⟨_, true, false, hs.2, placed_of_copy hs.2 hs.1 ho, trivial⟩
    | rolledBack e =>
      obtain ⟨cur, moved, ha, hplaced⟩ := hs
      rw [if_pos (not_not.mp hleft)]
      exact ⟨cur, true, moved, ha, hplaced, trivial⟩
    | cleaned =>
      obtain ⟨-, ha, hplaced⟩ := hs
      rw [if_pos (not_not.mp hleft)]
      exact ⟨_, true, true, ha, hplaced, rfl⟩
    | answered =>
      obtain ⟨-, old, ha, hplaced⟩ := hs
      have hfault : fault ≠ .none := hleft
      simp only [moveFileStep, hfault, ne_eq, not_false_eq_true, if_true] at hwm
      cases hwm
      exact ⟨old, false, true, ha, hplaced, trivial⟩
    | _ => exact absurd trivial hleft

theorem Moving.spoiled_preserved : Transition.Preserves (Moving.step indexPrefix req me)
    (fun _ _ => True) (Moving.Spoiled indexPrefix req w₀) := by
  intro s a t hs _ ht
  cases a with
  | tick d =>
    obtain rfl := Option.some.inj ht
    exact hs
  | step fault =>
    obtain ⟨⟨w', m'⟩, hwm, rfl⟩ := Option.map_eq_some_iff.mp ht
    obtain ⟨w, m⟩ := s
    obtain ⟨old, src, moved, ha, hplaced, hm⟩ := hs
    refine ⟨old, src, moved, ha, ?_⟩
    cases m with
    | release cur r =>
      cases r with
      | ok f => cases hwm; exact ⟨hplaced, hm⟩
      | error e => cases hwm; exact ⟨hplaced, hm⟩
    | readBack id =>
      simp only [moveFileStep] at hwm
      split at hwm
      · cases hwm; exact ⟨hplaced, trivial⟩
      · split at hwm
        · cases hwm; exact ⟨hplaced, trivial⟩
        · cases hwm; exact ⟨hplaced, hm⟩
    | done r => cases hwm
    | _ => exact absurd hm id

theorem Moving.seen_preserved : Transition.Preserves (Moving.step (β := β) indexPrefix req me)
    (fun _ _ => True) fun s => ∀ f ∈ s.world.db.files.rows, f.seenAt ≤ s.world.now := by
  intro s a t hs _ ht
  cases a with
  | tick d =>
    obtain rfl := Option.some.inj ht
    intro f hf
    exact (hs f hf).trans (Int.le_add_of_nonneg_right (Int.natCast_nonneg d))
  | step fault =>
    obtain ⟨⟨w', m'⟩, hwm, rfl⟩ := Option.map_eq_some_iff.mp ht
    obtain ⟨hnow, hdb⟩ := db_of_moveStep (moveStep_of_step hwm)
    intro f hf
    have hseen : ∃ g ∈ s.world.db.files.rows, g.seenAt = f.seenAt := by
      rcases hdb with hdb | ⟨-, -, moved, hdb⟩
      · exact ⟨f, hdb ▸ hf, rfl⟩
      · rcases moved_rows hdb hf with hf | ⟨g, hg, -, rfl⟩
        · exact ⟨f, hf, rfl⟩
        · exact ⟨g, hg, rfl⟩
    obtain ⟨g, hg, hgf⟩ := hseen
    exact hgf ▸ hnow ▸ hs g hg

end Invariant

section Reconciled

variable {β ι : Type} {indexPrefix : Key} {req : MoveFileRequest} {w₀ w₁ w₂ : World β ι}

theorem Crawled.elsewhere (h : Crawled indexPrefix w₁ w₂) (hw₀ : w₀.Settled indexPrefix) {k : Key}
    (hk : w₁.cell k = w₀.cell k) : (w₂.cell k).owner = (w₀.cell k).owner := by
  have hlisted : w₁.Listed indexPrefix k ↔ (w₀.cell k).owner ≠ none := by
    rw [hw₀.owned k, listed_iff, listed_iff, hk]
  cases ho : (w₀.cell k).owner with
  | none => exact h.vacant fun hl => hlisted.mp hl ho
  | some id => exact h.kept k id (hlisted.mpr (by simp [ho])) (by rw [hk, ho])

theorem Admitted.source_eq {old k : Key} (h : Admitted indexPrefix req w₀ old)
    (hk : k ∈ w₀.source req) : k = old :=
  World.owner_inj (source_eq_some_iff.mp hk) h.source

theorem Placed.listed_dst {old : Key} {src moved : Bool}
    (h : Placed req w₀ w₁ old src true moved) (ha : Admitted indexPrefix req w₀ old) :
    w₁.Listed indexPrefix req.destinationKey := by
  rw [listed_iff, h.at_dst]
  exact ⟨(listed_iff.mp ha.stored).1, ha.unreserved⟩

theorem Placed.listed_src {old : Key} {dst moved : Bool}
    (h : Placed req w₀ w₁ old true dst moved) (ha : Admitted indexPrefix req w₀ old) :
    w₁.Listed indexPrefix old := by
  rw [listed_iff, h.at_src ha.ne]
  exact listed_iff.mp ha.stored

theorem reconciled_of_relocated (hw₀ : w₀.Settled indexPrefix)
    (h : Relocated indexPrefix req w₀ w₁) (hc : Crawled indexPrefix w₁ w₂) (f : FileInfo) :
    MoveReconciled req w₀ w₂ (.ok f) := by
  obtain ⟨old, ha, hplaced⟩ := h
  refine ⟨old, source_eq_some_iff.mpr ha.source, ?_, fun k => ?_⟩
  · rw [hc.bytesAt, hplaced.at_dst]
    rfl
  · split_ifs with hdst hsrc
    · subst hdst
      exact hc.kept _ _ (hplaced.listed_dst ha) (by rw [hplaced.at_dst]; rfl)
    · subst hsrc
      refine hc.vacant fun hl => ?_
      rw [listed_iff, hplaced.at_src ha.ne] at hl
      exact hl.1 rfl
    · exact hc.elsewhere hw₀ (hplaced.elsewhere hdst hsrc)

theorem reconciled_of_withdrawn (hw₀ : w₀.Settled indexPrefix)
    (h : Withdrawn indexPrefix req w₀ w₁) (hc : Crawled indexPrefix w₁ w₂) (e : Failure) :
    MoveReconciled req w₀ w₂ (.error e) := by
  rcases h with hsame | ⟨old, moved, ha, hplaced⟩
  · refine ⟨fun old hold => ⟨?_, ?_⟩, fun k _ => hc.elsewhere hw₀ (hsame k)⟩
    · rw [hc.bytesAt, hsame]
      rfl
    · rw [hc.elsewhere hw₀ (hsame old), source_eq_some_iff.mp hold]
      simp
  · refine ⟨fun k hk => ?_, fun k hk => ?_⟩
    · obtain rfl := ha.source_eq hk
      refine ⟨?_, (hc.owned k).mpr (hplaced.listed_src ha)⟩
      rw [hc.bytesAt, hplaced.at_src ha.ne]
      rfl
    · have hsrc : k ≠ old := by
        rintro rfl
        exact hk (source_eq_some_iff.mpr ha.source).symm
      cases decEq k req.destinationKey with
      | isTrue hdst =>
        subst hdst
        rw [ha.vacant]
        refine hc.vacant fun hl => ?_
        rw [listed_iff, hplaced.at_dst] at hl
        exact hl.1 rfl
      | isFalse hdst => exact hc.elsewhere hw₀ (hplaced.elsewhere hdst hsrc)

theorem not_reconciled_of_spoiled {r : Except Failure FileInfo}
    (h : Moving.Spoiled indexPrefix req w₀ ⟨w₁, .done r⟩) (hc : Crawled indexPrefix w₁ w₂) :
    ¬MoveReconciled req w₀ w₂ r := by
  obtain ⟨old, src, moved, ha, hplaced, hr⟩ := h
  cases r with
  | ok f =>
    obtain rfl : src = true := hr
    rintro ⟨k, hk, -, howner⟩
    obtain rfl := ha.source_eq hk
    have hsecond : (w₂.cell k).owner ≠ none := (hc.owned k).mpr (hplaced.listed_src ha)
    rw [howner k, if_neg ha.ne, if_pos rfl] at hsecond
    exact hsecond rfl
  | error e =>
    rintro ⟨-, howner⟩
    have hne : some req.destinationKey ≠ w₀.source req :=
      fun he => ha.ne (ha.source_eq he.symm).symm
    have hcopy := (hc.owned _).mpr (hplaced.listed_dst ha)
    rw [howner _ hne] at hcopy
    exact hcopy ha.vacant

theorem reconciled_iff_cleaned_up [DecidableEq ι] {me : ι} {batchSize d n : Nat}
    {as : List MovingAction} {bs : List CrawlingAction} {r : Except Failure FileInfo}
    (hw₀ : w₀.Settled indexPrefix)
    (hmove : Transition.exec (Moving.step indexPrefix req me) ⟨w₀, .getFile⟩ as =
      some ⟨w₁, .done r⟩)
    (hcrawl : Transition.exec (Crawling.step indexPrefix batchSize)
      ⟨{ w₁ with now := w₁.now + (d + 1) }, .databaseNow⟩ bs = some ⟨w₂, .finished n⟩) :
    MoveReconciled req w₀ w₂ r ↔
      Transition.EveryStep (Moving.step indexPrefix req me) CleansUp ⟨w₀, .getFile⟩ as := by
  have hseen : ∀ f ∈ w₁.db.files.rows, f.seenAt ≤ w₁.now :=
    Moving.seen_preserved.exec hw₀.seen hmove
  have hlater : w₁.now < w₁.now + ((d : Int) + 1) := by
    have : (0 : Int) < (d : Int) + 1 := by positivity
    exact lt_add_of_pos_right _ this
  have hrun : Crawled indexPrefix { w₁ with now := w₁.now + ((d : Int) + 1) } w₂ :=
    crawled_of_run (fun f hf => (hseen f hf).trans_lt hlater) hcrawl
  have hc : Crawled indexPrefix w₁ w₂ := ⟨hrun.bucket, hrun.owned, hrun.kept⟩
  have hstart : Moving.Tidy indexPrefix req w₀ ⟨w₀, .getFile⟩ := fun _ => rfl
  rcases Transition.good_or_bad (Moving.tidy_preserved hw₀) Moving.spoiled_of_left
    Moving.spoiled_preserved hstart hmove with ⟨hclean, hend⟩ | ⟨hleft, hend⟩
  · refine iff_of_true ?_ hclean
    cases r with
    | ok f => exact reconciled_of_relocated hw₀ hend hc f
    | error e => exact reconciled_of_withdrawn hw₀ hend hc e
  · exact iff_of_false (not_reconciled_of_spoiled hend hc) hleft

end Reconciled

section Runs

def albumWorld : World String Unit where
  db := ⟨⟨[⟨1, ascii "a", 0, 0, 0⟩], 2, by decide, by decide, by decide⟩, ∅⟩
  previewKeys _ := none
  bucket := (∅ : Bucket String).put 0 (ascii "a") "photo"
  locks _ := none
  now := 5

def crawlWhole (n : Nat) : List CrawlingAction := List.replicate n (.crawl 1000)

def moveUntil (n : Nat) : List MovingAction := List.replicate n (.step .none)

theorem albumWorld_settled : albumWorld.Settled (ascii ".index/") := by
  refine ⟨fun k => ?_, by decide⟩
  have hbucket : albumWorld.bucket.lookup k = if k = ascii "a" then some ⟨"photo", 0⟩ else none :=
    Bucket.lookup_put _ _ _ _ _
  have howner : (albumWorld.cell k).owner = if k = ascii "a" then some 1 else none := by
    split_ifs with hk
    · exact Files.ownerAt_eq_some_iff.mpr ⟨⟨1, ascii "a", 0, 0, 0⟩, by simp [albumWorld], hk.symm, rfl⟩
    · refine Files.ownerAt_eq_none_iff.mpr fun f hf => ?_
      obtain rfl : f = ⟨1, ascii "a", 0, 0, 0⟩ := by simpa [albumWorld] using hf
      exact Ne.symm hk
  rw [howner, World.Listed, hbucket]
  split_ifs with hk
  · subst hk
    exact iff_of_true (by simp) ⟨by simp, by decide⟩
  · simp

def AlbumMoved (as : List MovingAction) (bs : List CrawlingAction) (f : FileInfo)
    (w₁ w₂ : World String Unit) : Prop :=
  Transition.exec (Moving.step (ascii ".index/") ⟨1, ascii "b"⟩ ()) ⟨albumWorld, .getFile⟩ as =
      some ⟨w₁, .done (.ok f)⟩ ∧
    ∃ n, Transition.exec (Crawling.step (ascii ".index/") defaultBatchSize)
      ⟨{ w₁ with now := w₁.now + (0 + 1) }, .databaseNow⟩ bs = some ⟨w₂, .finished n⟩

theorem leftover_source_registered_again : albumWorld.Settled (ascii ".index/") ∧
    ∃ f w₁ w₂, AlbumMoved (moveUntil 9 ++ MovingAction.step .before :: moveUntil 2) (crawlWhole 6)
        f w₁ w₂ ∧ ¬MoveReconciled ⟨1, ascii "b"⟩ albumWorld w₂ (.ok f) := by
  refine ⟨albumWorld_settled, _, _, _, ⟨rfl, _, rfl⟩, ?_⟩
  rintro ⟨old, hold, -, howner⟩
  have hsource : albumWorld.source ⟨1, ascii "b"⟩ = some (ascii "a") := by decide
  obtain rfl : ascii "a" = old := Option.some.inj (hsource.symm.trans hold)
  exact absurd (howner (ascii "a")) (by decide)

instance cleansUpDecidable (s : Moving String Unit) : (a : MovingAction) → Decidable (CleansUp s a)
  | .tick _ => isTrue trivial
  | .step fault =>
    match s with
    | ⟨_, .copy _ _⟩ => inferInstanceAs (Decidable (fault ≠ .after))
    | ⟨_, .rollbackDelete _ _⟩ => inferInstanceAs (Decidable (fault ≠ .before))
    | ⟨_, .deleteOld _ _ _⟩ => inferInstanceAs (Decidable (fault ≠ .before))
    | ⟨_, .readBack _⟩ => inferInstanceAs (Decidable (fault = .none))
    | ⟨_, .getFile⟩ | ⟨_, .getFileByKey _⟩ | ⟨_, .acquireMoveLocks _ _⟩ | ⟨_, .getFileLocked _⟩
    | ⟨_, .getFileByKeyLocked _ _⟩ | ⟨_, .moveFileWithDirectories _ _⟩ | ⟨_, .release _ _⟩
    | ⟨_, .done _⟩ => isTrue trivial

theorem reconciled_after_clean_move :
    ∃ f w₁ w₂, AlbumMoved (moveUntil 12) (crawlWhole 5) f w₁ w₂ ∧
      MoveReconciled ⟨1, ascii "b"⟩ albumWorld w₂ (.ok f) := by
  have hrun : ∃ f w₁ w₂, AlbumMoved (moveUntil 12) (crawlWhole 5) f w₁ w₂ :=
    ⟨_, _, _, rfl, _, rfl⟩
  obtain ⟨f, w₁, w₂, hmove, n, hcrawl⟩ := hrun
  refine ⟨f, w₁, w₂, ⟨hmove, n, hcrawl⟩, ?_⟩
  exact (reconciled_iff_cleaned_up (d := 0) albumWorld_settled hmove hcrawl).mpr (by decide)

end Runs

end FileIndexer
