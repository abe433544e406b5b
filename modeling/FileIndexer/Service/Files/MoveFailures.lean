import FileIndexer.Service.Crawler.Leftovers

namespace FileIndexer

section Property

variable {β ι : Type}

def World.StoredAt (w : World β ι) (id : FileID) (bytes : β) (key : Key) : Prop :=
  (w.cell key).owner = some id ∧ (w.cell key).bytes = some bytes

def World.HoldsFile (w : World β ι) (id : FileID) (bytes : β) : Prop :=
  ∃ key, w.StoredAt id bytes key

def RollsBackUncommitted (req : MoveFileRequest) (s : Moving β ι) : MovingAction → Prop
  | .step fault =>
    match s.mover with
    | .rollbackDelete _ _ =>
      fault ≠ .before → (s.world.cell req.destinationKey).owner ≠ some req.id
    | _ => True
  | .tick _ => True

end Property

section Invariant

variable {β ι : Type} {indexPrefix : Key} {req : MoveFileRequest} {bytes : β}

def Moving.Safe (req : MoveFileRequest) (bytes : β) (s : Moving β ι) : Prop :=
  match s.mover with
  | .getFileByKeyLocked _ cur => s.world.StoredAt req.id bytes cur
  | .copy _ cur =>
    s.world.StoredAt req.id bytes cur ∧ (s.world.cell req.destinationKey).owner = none
  | .moveFileWithDirectories _ cur =>
    s.world.StoredAt req.id bytes cur ∧ s.world.cell req.destinationKey = ⟨some bytes, none⟩
  | .deleteOld _ cur _ => s.world.StoredAt req.id bytes req.destinationKey ∧ cur ≠ req.destinationKey
  | _ => s.world.HoldsFile req.id bytes

theorem World.StoredAt.delete {w : World β ι} {id : FileID} {key k : Key}
    (h : w.StoredAt id bytes key) (hk : key ≠ k) :
    World.StoredAt { w with bucket := w.bucket.delete k } id bytes key := by
  have hcell : World.cell { w with bucket := w.bucket.delete k } key = w.cell key := by
    rw [World.cell_delete, if_neg hk]
  rwa [World.StoredAt, hcell]

theorem World.StoredAt.put {w : World β ι} {id : FileID} {key k : Key} {o : β}
    (h : w.StoredAt id bytes key) (hk : key ≠ k) :
    World.StoredAt { w with bucket := w.bucket.put w.now k o } id bytes key := by
  have hcell : World.cell { w with bucket := w.bucket.put w.now k o } key = w.cell key := by
    rw [World.cell_put, if_neg hk]
  rwa [World.StoredAt, hcell]

theorem World.StoredAt.of_getFile {w : World β ι} (h : w.HoldsFile req.id bytes) {f : FileInfo}
    (hf : w.getFile req.id = some f) : w.StoredAt req.id bytes f.file.key := by
  obtain ⟨key, howner, hbytes⟩ := h
  obtain rfl := World.owner_inj howner (World.owner_of_getFile hf)
  exact ⟨howner, hbytes⟩

theorem World.StoredAt.copied {w : World β ι} {cur : Key} {o : Object β}
    (h : w.StoredAt req.id bytes cur) (hfree : (w.cell req.destinationKey).owner = none)
    (ho : w.bucket.lookup cur = some o) :
    World.StoredAt { w with bucket := w.bucket.put w.now req.destinationKey o.bytes } req.id bytes cur ∧
      World.cell { w with bucket := w.bucket.put w.now req.destinationKey o.bytes }
        req.destinationKey = ⟨some bytes, none⟩ := by
  refine ⟨h.put (World.ne_of_vacant h.1 hfree), ?_⟩
  have hbytes : some o.bytes = some bytes := by
    rw [← h.2]
    simp [World.cell, Bucket.bytesAt, ho]
  rw [World.cell_put, if_pos rfl, hfree, hbytes]

theorem World.StoredAt.moved {w : World β ι} {cur : Key} {f : File} {db : Db}
    (h : w.StoredAt req.id bytes cur)
    (hcopy : w.cell req.destinationKey = ⟨some bytes, none⟩)
    (hdb : w.db.moveFileWithDirectories req.id req.destinationKey = .ok (f, db)) :
    World.StoredAt { w with db } req.id bytes req.destinationKey ∧ cur ≠ req.destinationKey := by
  refine ⟨?_, World.ne_of_vacant h.1 (by rw [hcopy])⟩
  rw [World.StoredAt, World.cell_move hdb h.1, hcopy]
  simp

theorem Moving.Safe.holds {s : Moving β ι} (h : s.Safe req bytes) :
    s.world.HoldsFile req.id bytes := by
  obtain ⟨w, m⟩ := s
  cases m with
  | getFileByKeyLocked old cur => exact ⟨cur, h⟩
  | copy old cur => exact ⟨cur, h.1⟩
  | moveFileWithDirectories old cur => exact ⟨cur, h.1⟩
  | deleteOld old cur f => exact ⟨_, h.1⟩
  | _ => exact h

end Invariant

section Run

variable {β ι : Type} [DecidableEq ι] {indexPrefix : Key} {req : MoveFileRequest} {me : ι} {bytes : β}

theorem Moving.safe_preserved : Transition.Preserves (Moving.step indexPrefix req me)
    (RollsBackUncommitted req) (Moving.Safe req bytes (β := β)) := by
  intro s a t hs hok ht
  cases a with
  | tick d =>
    obtain rfl := Option.some.inj ht
    exact hs
  | step fault =>
    obtain ⟨⟨w', m'⟩, hwm, rfl⟩ := Option.map_eq_some_iff.mp ht
    obtain ⟨w, m⟩ := s
    have hstep := moveStep_of_step hwm
    cases hstep with
    | refused e hm => rcases hm with rfl | ⟨old, rfl⟩ <;> exact hs
    | reread hf => exact .of_getFile hs hf
    | recheck hv => exact ⟨hs, World.getFileByKey_eq_none_iff.mp hv⟩
    | abandoned e hm =>
      rcases hm with rfl | ⟨cur, rfl⟩
      · exact hs
      · exact ⟨cur, hs⟩
    | copyFailed e hf => exact ⟨_, hs.1⟩
    | copied ho hf => exact hs.1.copied hs.2 ho
    | copyLost e ho hf => exact ⟨_, (hs.1.copied hs.2 ho).1⟩
    | moved hdb hf => exact hs.1.moved hs.2 hdb
    | movedLost hdb hf => exact ⟨_, (hs.1.moved hs.2 hdb).1⟩
    | conflict e hdb => exact ⟨_, hs.1⟩
    | moveFailed e hf => exact ⟨_, hs.1⟩
    | rolledBack e =>
      cases Decidable.em (fault = .before) with
      | inl hfault => rwa [if_pos hfault]
      | inr hfault =>
        rw [if_neg hfault]
        obtain ⟨key, hkey⟩ := hs
        have hne : key ≠ req.destinationKey := by
          rintro rfl
          exact hok hfault hkey.1
        exact ⟨key, hkey.delete hne⟩
    | cleaned =>
      cases Decidable.em (fault = .before) with
      | inl hfault =>
        rw [if_pos hfault]
        exact ⟨_, hs.1⟩
      | inr hfault =>
        rw [if_neg hfault]
        exact ⟨_, hs.1.delete hs.2.symm⟩
    | released hr => rcases hr with ⟨f, rfl⟩ | ⟨e, rfl⟩ <;> exact hs
    | _ => exact hs

theorem Moving.uncommitted_of_holds (s : Moving β ι) (a : MovingAction) (t : Moving β ι)
    (ht : t.world.HoldsFile req.id bytes) (h : s.step indexPrefix req me a = some t) :
    RollsBackUncommitted req s a := by
  cases a with
  | tick d => trivial
  | step fault =>
    obtain ⟨w, m⟩ := s
    cases m with
    | rollbackDelete old cause =>
      intro hfault howner
      obtain rfl := Option.some.inj h
      simp only [if_neg hfault] at ht
      obtain ⟨key, hkey, hbytes⟩ := ht
      obtain rfl := World.owner_inj (w := w) hkey howner
      rw [World.cell_delete, if_pos rfl] at hbytes
      cases hbytes
    | _ => trivial

theorem row_keeps_object_iff (w₀ : World β ι) (hstored : w₀.HoldsFile req.id bytes)
    (as : List MovingAction) :
    Transition.EveryState (Moving.step indexPrefix req me)
        (fun s => s.world.HoldsFile req.id bytes) ⟨w₀, .getFile⟩ as ↔
      Transition.EveryStep (Moving.step indexPrefix req me) (RollsBackUncommitted req)
        ⟨w₀, .getFile⟩ as := by
  have hstart : Moving.Safe req bytes (⟨w₀, .getFile⟩ : Moving β ι) := hstored
  constructor
  · exact Transition.everyStep_of_everyState
      (fun s a t _ ht h => Moving.uncommitted_of_holds s a t ht h)
      (fun _ _ _ _ _ _ => trivial) as trivial
  · intro hok
    exact (Transition.everyState_of_preserves Moving.safe_preserved as hstart hok).mono
      fun s hs => hs.holds

end Run

section Album

instance RollsBackUncommitted.decidable (req : MoveFileRequest) (s : Moving String Unit) :
    (a : MovingAction) → Decidable (RollsBackUncommitted req s a)
  | .tick _ => isTrue trivial
  | .step fault =>
    match s with
    | ⟨w, .rollbackDelete _ _⟩ => inferInstanceAs
        (Decidable (fault ≠ .before → (w.cell req.destinationKey).owner ≠ some req.id))
    | ⟨_, .getFile⟩ | ⟨_, .getFileByKey _⟩ | ⟨_, .acquireMoveLocks _ _⟩ | ⟨_, .getFileLocked _⟩
    | ⟨_, .getFileByKeyLocked _ _⟩ | ⟨_, .copy _ _⟩ | ⟨_, .moveFileWithDirectories _ _⟩
    | ⟨_, .deleteOld _ _ _⟩ | ⟨_, .release _ _⟩ | ⟨_, .readBack _⟩ | ⟨_, .done _⟩ => isTrue trivial

theorem albumWorld_holds : albumWorld.HoldsFile 1 "photo" := ⟨ascii "a", by decide, by decide⟩

theorem ambiguous_commit_loses_object : albumWorld.HoldsFile 1 "photo" ∧
    (albumWorld.cell (ascii "b")).bytes = none ∧
    ¬Transition.EveryState (Moving.step (ascii ".index/") ⟨1, ascii "b"⟩ ())
      (fun s => s.world.HoldsFile 1 "photo") ⟨albumWorld, .getFile⟩
      (moveUntil 8 ++ MovingAction.step .after :: moveUntil 1) := by
  refine ⟨albumWorld_holds, by decide, fun h => ?_⟩
  have hok : Transition.EveryStep (Moving.step (ascii ".index/") ⟨1, ascii "b"⟩ ())
      (RollsBackUncommitted ⟨1, ascii "b"⟩) ⟨albumWorld, .getFile⟩
      (moveUntil 8 ++ MovingAction.step .after :: moveUntil 1) :=
    Transition.everyStep_of_everyState
      (fun s a t _ ht hstep => Moving.uncommitted_of_holds s a t ht hstep)
      (fun _ _ _ _ _ _ => trivial) _ trivial h
  exact absurd hok (by decide)

theorem row_keeps_object_after_rollback :
    Transition.EveryState (Moving.step (ascii ".index/") ⟨1, ascii "b"⟩ ())
      (fun s => s.world.HoldsFile 1 "photo") ⟨albumWorld, .getFile⟩
      (moveUntil 8 ++ MovingAction.step .before :: moveUntil 2) :=
  (row_keeps_object_iff albumWorld albumWorld_holds _).mpr (by decide)

end Album

end FileIndexer
