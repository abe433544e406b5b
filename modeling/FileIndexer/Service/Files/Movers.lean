import FileIndexer.Foundation.Runs
import FileIndexer.Foundation.Guarded
import FileIndexer.Service.Files.MoveFile

namespace FileIndexer

open Guarded

structure Movers (β ι : Type) where
  world : World β ι
  movers : ι → MoveState

inductive MoversAction (ι : Type) where
  | step (i : ι)
  | tick (d : Nat)

section System

variable {β ι : Type} [DecidableEq ι]

def Movers.step (indexPrefix : Key) (req : ι → MoveFileRequest) (s : Movers β ι) :
    MoversAction ι → Option (Movers β ι)
  | .step i =>
    (moveFileStep indexPrefix (req i) i .none s.world (s.movers i)).map fun (w, m) =>
      ⟨w, Function.update s.movers i m⟩
  | .tick d => some { s with world := { s.world with now := s.world.now + d } }

def RowsHoldOwnBytes (own : FileID → β) (w : World β ι) : Prop :=
  ∀ f ∈ w.db.files.rows, w.bucket.bytesAt f.key = some (own f.id)

structure Movers.Initial (own : FileID → β) (s : Movers β ι) : Prop where
  idle : ∀ i, s.movers i = .getFile
  unlocked : ∀ k, s.world.locks k = none
  rows : RowsHoldOwnBytes own s.world

def MoveState.inFlight : MoveState → Bool
  | .getFile | .done _ => false
  | _ => true

def Movers.Quiescent (s : Movers β ι) : Prop := ∀ i, (s.movers i).inFlight = false

def MoveState.copiesLockedKey (req : MoveFileRequest) : MoveState → Bool
  | .copy old cur => cur = old || cur = req.destinationKey
  | _ => true

def CopiesLockedKey (req : ι → MoveFileRequest) (s : Movers β ι) : MoversAction ι → Prop
  | .step i => (s.movers i).copiesLockedKey (req i) = true
  | .tick _ => True

end System

section Invariant

variable {β ι : Type} {own : FileID → β}

def World.heap (w : World β ι) : Heap Key ι (Cell β) := ⟨w.cell, w.locks⟩

def CellOk (own : FileID → β) (c : Cell β) : Prop := ∀ id, c.owner = some id → c.bytes = some (own id)

theorem rowsHoldOwnBytes_iff {w : World β ι} :
    RowsHoldOwnBytes own w ↔ ∀ k, CellOk own (w.cell k) := by
  constructor
  · intro h k id hid
    obtain ⟨f, hf, rfl, rfl⟩ := Files.ownerAt_eq_some_iff.mp hid
    exact h f hf
  · intro h f hf
    exact h f.key f.id (Files.ownerAt_eq_some_iff.mpr ⟨f, hf, rfl, rfl⟩)

def isOwner (id : FileID) (c : Cell β) : Prop := c.owner = some id

def isVacant (c : Cell β) : Prop := c.owner = none

def holdsCopy (own : FileID → β) (id : FileID) (c : Cell β) : Prop :=
  c.owner = none ∧ c.bytes = some (own id)

def anything (_ : Cell β) : Prop := True

def lockedKeys (req : MoveFileRequest) (old : Key) : List (Key × (Cell β → Prop)) :=
  [(old, anything), (req.destinationKey, anything)]

def sourceClaim (req : MoveFileRequest) (old cur : Key) : List (Key × (Cell β → Prop)) :=
  if cur = old ∨ cur = req.destinationKey then [(cur, isOwner req.id)] else []

def MoveState.claims (own : FileID → β) (req : MoveFileRequest) :
    MoveState → List (Key × (Cell β → Prop))
  | .acquireMoveLocks old ks =>
    ((lockKeys old req.destinationKey).filter fun k => k ∉ ks).map fun k => (k, anything)
  | .getFileLocked old => lockedKeys req old
  | .getFileByKeyLocked old cur => sourceClaim req old cur ++ lockedKeys req old
  | .copy old cur => (req.destinationKey, isVacant) :: sourceClaim req old cur ++ lockedKeys req old
  | .moveFileWithDirectories old cur =>
    (req.destinationKey, holdsCopy own req.id) :: (cur, isOwner req.id) :: lockedKeys req old
  | .rollbackDelete old _ => (req.destinationKey, isVacant) :: lockedKeys req old
  | .deleteOld old cur _ => (cur, isVacant) :: lockedKeys req old
  | .release old _ => lockedKeys req old
  | _ => []

theorem owns_lockedKeys {h : Heap Key ι (Cell β)} {i : ι} {req : MoveFileRequest} {old : Key} :
    Owns h i (lockedKeys req old) ↔
      h.holder old = some i ∧ h.holder req.destinationKey = some i := by
  simp [lockedKeys, Owns, anything]

theorem owns_lockedKeys_congr {w w' : World β ι} {i : ι} {req : MoveFileRequest} {old : Key}
    (hl : w'.locks = w.locks) (h : Owns w.heap i (lockedKeys req old)) :
    Owns w'.heap i (lockedKeys req old) := by
  rw [owns_lockedKeys] at h ⊢
  simpa only [World.heap, hl] using h

theorem owns_sourceClaim {h : Heap Key ι (Cell β)} {i : ι} {req : MoveFileRequest} {old cur : Key}
    (hl : Owns h i (lockedKeys req old)) :
    Owns h i (sourceClaim req old cur) ↔
      (cur = old ∨ cur = req.destinationKey → isOwner req.id (h.cell cur)) := by
  unfold sourceClaim
  split
  · rename_i hc
    obtain ⟨ho, hd⟩ := owns_lockedKeys.mp hl
    have hk : h.holder cur = some i := by rcases hc with rfl | rfl <;> assumption
    simp [Owns, hc, hk]
  · rename_i hc
    simp [Owns, hc]

theorem framed_of_cell {w w' : World β ι} {me : ι} (hl : w'.locks = w.locks) (ks : List Key)
    (hks : ∀ k ∈ ks, w.locks k = some me) (hc : ∀ k, k ∉ ks → w'.cell k = w.cell k) :
    Framed me w.heap w'.heap where
  cells k hk := hc k fun hm => hk (hks k hm)
  holders k j _ h := by
    simpa [World.heap, hl] using h

structure Sound (own : FileID → β) (req : MoveFileRequest) (me : ι) (w w' : World β ι)
    (m' : MoveState) : Prop where
  framed : Framed me w.heap w'.heap
  cells : ∀ k, CellOk own (w'.cell k)
  claims : Owns w'.heap me (m'.claims own req)

theorem sound_of_same {req : MoveFileRequest} {me : ι} {w : World β ι} {m' : MoveState}
    (hok : ∀ k, CellOk own (w.cell k)) (hown : Owns w.heap me (m'.claims own req)) :
    Sound own req me w w m' :=
  ⟨.refl _ _, hok, hown⟩

def Movers.Safe (own : FileID → β) (req : ι → MoveFileRequest) (s : Movers β ι) : Prop :=
  (∀ k, CellOk own (s.world.cell k)) ∧ ∀ i, Owns s.world.heap i ((s.movers i).claims own (req i))

theorem Movers.Initial.safe {s : Movers β ι} (h : s.Initial own) (req : ι → MoveFileRequest) :
    s.Safe own req := by
  refine ⟨rowsHoldOwnBytes_iff.mp h.rows, fun i => ?_⟩
  rw [h.idle i]
  exact Owns.nil _ _

theorem sound_copied {req : MoveFileRequest} {me : ι} {w : World β ι} {old cur : Key}
    {o : Object β} (hok : ∀ k, CellOk own (w.cell k))
    (hown : Owns w.heap me ((MoveState.copy old cur).claims own req))
    (hsrc : cur = old ∨ cur = req.destinationKey) (ho : w.bucket.lookup cur = some o) :
    Sound own req me w { w with bucket := w.bucket.put w.now req.destinationKey o.bytes }
      (.moveFileWithDirectories old cur) := by
  obtain ⟨⟨hdst, hvac⟩, hrest⟩ := Owns.cons_iff.mp hown
  obtain ⟨hs, hl⟩ := Owns.append_iff.mp hrest
  have hcur : isOwner req.id (w.cell cur) := (owns_sourceClaim hl).mp hs hsrc
  have hbytes : o.bytes = own req.id := by
    have h := hok cur req.id hcur
    simpa [World.cell, Bucket.bytesAt, ho] using h
  have hne : cur ≠ req.destinationKey := World.ne_of_vacant hcur hvac
  have hcurLock : w.locks cur = some me := by
    obtain ⟨h1, h2⟩ := owns_lockedKeys.mp hl
    rcases hsrc with rfl | rfl <;> assumption
  refine ⟨framed_of_cell rfl [req.destinationKey] ?_ fun k hk => ?_, fun k => ?_, ?_⟩
  · intro k hk
    obtain rfl := List.mem_singleton.mp hk
    exact hdst
  · rw [World.cell_put, if_neg (by simpa using hk)]
  · rw [World.cell_put]
    split
    · rename_i hk
      intro id hid
      rw [hk] at hid
      exact absurd (hid.symm.trans hvac) (by simp)
    · exact hok k
  · refine Owns.cons_iff.mpr ⟨⟨hdst, ?_⟩, Owns.cons_iff.mpr
      ⟨⟨hcurLock, ?_⟩, owns_lockedKeys_congr (w := w) rfl hl⟩⟩
    · show holdsCopy own req.id (World.cell _ _)
      rw [World.cell_put, if_pos rfl, hbytes]
      exact ⟨hvac, rfl⟩
    · show isOwner req.id (World.cell _ _)
      rw [World.cell_put, if_neg hne]
      exact hcur

theorem sound_moved {req : MoveFileRequest} {me : ι} {w : World β ι} {old cur : Key} {f : File}
    {db : Db} (hok : ∀ k, CellOk own (w.cell k))
    (hown : Owns w.heap me ((MoveState.moveFileWithDirectories old cur).claims own req))
    (h : w.db.moveFileWithDirectories req.id req.destinationKey = .ok (f, db)) :
    Sound own req me w { w with db } (.deleteOld old cur f) := by
  obtain ⟨⟨hdst, hvac, hbytes⟩, hrest⟩ := Owns.cons_iff.mp hown
  obtain ⟨⟨hcurLock, hcur⟩, hl⟩ := Owns.cons_iff.mp hrest
  have hne : cur ≠ req.destinationKey := World.ne_of_vacant hcur hvac
  have hcell := World.cell_move h hcur
  refine ⟨framed_of_cell rfl [req.destinationKey, cur] ?_ fun k hk => ?_, fun k => ?_,
    Owns.cons_iff.mpr ⟨⟨hcurLock, ?_⟩, owns_lockedKeys_congr (w := w) rfl hl⟩⟩
  · simp only [List.mem_cons, List.not_mem_nil, or_false]
    rintro k (rfl | rfl)
    · exact hdst
    · exact hcurLock
  · simp only [List.mem_cons, List.not_mem_nil, or_false, not_or] at hk
    rw [hcell, if_neg hk.1, if_neg hk.2]
  · intro id hid
    rw [hcell] at hid ⊢
    simp only at hid ⊢
    split_ifs at hid with hk hk'
    · obtain rfl := Option.some.inj hid
      rw [hk]
      exact hbytes
    · exact hok k id hid
  · show isVacant (World.cell _ _)
    rw [hcell]
    simp [isVacant, hne]

theorem sound_deleted {req : MoveFileRequest} {me : ι} {w : World β ι} {k : Key} {old : Key}
    {r : Except Failure File} (hok : ∀ k, CellOk own (w.cell k)) (hk : w.locks k = some me)
    (hvac : isVacant (w.cell k)) (hl : Owns w.heap me (lockedKeys req old)) :
    Sound own req me w { w with bucket := w.bucket.delete k } (.release old r) := by
  refine ⟨framed_of_cell rfl [k] (by simpa using hk) fun k' hk' => ?_, fun k' => ?_,
    owns_lockedKeys_congr (w := w) rfl hl⟩
  · rw [World.cell_delete, if_neg (by simpa using hk')]
  · rw [World.cell_delete]
    split
    · rename_i he
      intro id hid
      rw [he] at hid
      exact absurd (hid.symm.trans hvac) (by simp)
    · exact hok k'

variable [DecidableEq ι]

theorem framed_lock (w : World β ι) {k : Key} (me : ι) (hk : w.locks k = none) :
    Framed me w.heap (w.lock k me).heap where
  cells _ _ := rfl
  holders k' j _ h := by
    have hne : k' ≠ k := by
      rintro rfl
      simp only [World.heap, hk] at h
      cases h
    simpa [World.heap, World.lock, hne] using h

theorem framed_unlock (w : World β ι) (me : ι) : Framed me w.heap (w.unlock me).heap where
  cells _ _ := rfl
  holders k j hj h := by
    have hne : w.locks k ≠ some me := by
      intro he
      exact hj (Option.some.inj (h.symm.trans he))
    simpa [World.heap, World.unlock, hne] using h

theorem sound_locked {req : MoveFileRequest} {me : ι} {w : World β ι} {old k : Key}
    {ks : List Key} (hok : ∀ k, CellOk own (w.cell k))
    (hown : Owns w.heap me ((MoveState.acquireMoveLocks old (k :: ks)).claims own req))
    (hfree : w.locks k = none) :
    Sound own req me w (w.lock k me) (.acquireMoveLocks old ks) := by
  refine ⟨framed_lock w me hfree, hok, ?_⟩
  intro a ha
  obtain ⟨x, hx, rfl⟩ := List.mem_map.mp ha
  obtain ⟨hmem, hnot⟩ := List.mem_filter.mp hx
  refine ⟨?_, trivial⟩
  by_cases he : x = k
  · simp [World.heap, World.lock, he]
  · have hx' : x ∉ k :: ks := by simpa [he] using hnot
    have h := hown (x, anything)
      (List.mem_map.mpr ⟨x, List.mem_filter.mpr ⟨hmem, by simpa using hx'⟩, rfl⟩)
    simpa [World.heap, World.lock, he] using h.1

theorem sound_step {indexPrefix : Key} {req : MoveFileRequest} {me : ι} {w w' : World β ι}
    {m m' : MoveState} (hstep : MoveStep indexPrefix req me .none w m w' m')
    (hok : ∀ k, CellOk own (w.cell k)) (hown : Owns w.heap me (m.claims own req))
    (hsrc : m.copiesLockedKey req = true) :
    Sound own req me w w' m' := by
  cases hstep with
  | refused e hm => exact sound_of_same hok (Owns.nil _ _)
  | read hf hv => exact sound_of_same hok (Owns.nil _ _)
  | vacant hv =>
    refine sound_of_same hok fun a ha => ?_
    obtain ⟨x, hx, rfl⟩ := List.mem_map.mp ha
    simp at hx
  | lockFailed e => exact ⟨framed_unlock w me, hok, Owns.nil _ _⟩
  | lockedAll =>
    rename_i old
    refine sound_of_same hok (owns_lockedKeys.mpr ?_)
    have h (k : Key) (hk : k = old ∨ k = req.destinationKey) : w.heap.holder k = some me :=
      (hown (k, anything) (List.mem_map.mpr
        ⟨k, List.mem_filter.mpr ⟨mem_lockKeys.mpr hk, by simp⟩, rfl⟩)).1
    exact ⟨h _ (.inl rfl), h _ (.inr rfl)⟩
  | locked hfree => exact sound_locked hok hown hfree
  | reread hf =>
    refine sound_of_same hok (Owns.append_iff.mpr ⟨(owns_sourceClaim hown).mpr fun _ => ?_, hown⟩)
    exact World.owner_of_getFile hf
  | recheck hv =>
    obtain ⟨-, hl⟩ := Owns.append_iff.mp hown
    exact sound_of_same hok (Owns.cons_iff.mpr
      ⟨⟨(owns_lockedKeys.mp hl).2, World.getFileByKey_eq_none_iff.mp hv⟩, hown⟩)
  | abandoned e hm =>
    refine sound_of_same hok ?_
    rcases hm with rfl | ⟨cur, rfl⟩
    · exact hown
    · exact (Owns.append_iff.mp hown).2
  | copyFailed e _ =>
    exact sound_of_same hok (Owns.append_iff.mp (Owns.cons_iff.mp hown).2).2
  | copied ho _ => exact sound_copied hok hown (by simpa [MoveState.copiesLockedKey] using hsrc) ho
  | copyLost e ho hfault => cases hfault
  | moved h _ => exact sound_moved hok hown h
  | movedLost h hfault => cases hfault
  | conflict e _ => exact sound_of_same hok (Owns.cons_iff.mp (Owns.cons_iff.mp hown).2).2
  | moveFailed e _ =>
    obtain ⟨⟨hdst, hvac, -⟩, hrest⟩ := Owns.cons_iff.mp hown
    exact sound_of_same hok (Owns.cons_iff.mpr ⟨⟨hdst, hvac⟩, (Owns.cons_iff.mp hrest).2⟩)
  | rolledBack e =>
    obtain ⟨⟨hdst, hvac⟩, hl⟩ := Owns.cons_iff.mp hown
    exact sound_deleted hok hdst hvac hl
  | cleaned =>
    obtain ⟨⟨hcur, hvac⟩, hl⟩ := Owns.cons_iff.mp hown
    exact sound_deleted hok hcur hvac hl
  | released hm =>
    refine ⟨framed_unlock w me, hok, ?_⟩
    rcases hm with ⟨f, rfl⟩ | ⟨e, rfl⟩ <;> exact Owns.nil _ _
  | answered => exact sound_of_same hok (Owns.nil _ _)

theorem Movers.safe_preserved (indexPrefix : Key) (req : ι → MoveFileRequest) :
    Transition.Preserves (Movers.step indexPrefix req) (CopiesLockedKey req)
      (Movers.Safe own req (β := β)) := by
  intro s a t hs hok ht
  cases a with
  | step i =>
    obtain ⟨⟨w, m⟩, hwm, rfl⟩ := Option.map_eq_some_iff.mp ht
    have h := sound_step (moveStep_of_step hwm) hs.1 (hs.2 i) hok
    refine ⟨h.cells, fun j => ?_⟩
    by_cases hj : j = i
    · subst hj
      simpa using h.claims
    · simpa [hj] using (hs.2 j).stable hj h.framed
  | tick d =>
    obtain rfl := Option.some.inj ht
    exact hs

theorem rows_hold_own_bytes (indexPrefix : Key) (req : ι → MoveFileRequest) (own : FileID → β)
    (s : Movers β ι) (hs : s.Initial own) (as : List (MoversAction ι))
    (hok : Transition.EveryStep (Movers.step indexPrefix req) (CopiesLockedKey req) s as) :
    Transition.EveryState (Movers.step indexPrefix req) (fun t => RowsHoldOwnBytes own t.world) s as :=
  (Transition.everyState_of_preserves (Movers.safe_preserved indexPrefix req) as (hs.safe req)
    hok).mono fun _ ht => rowsHoldOwnBytes_iff.mpr ht.1

end Invariant

section Runs

instance rowsHoldOwnBytesDecidable (own : FileID → FileID) (w : World FileID (Fin 3)) :
    Decidable (RowsHoldOwnBytes own w) :=
  inferInstanceAs (Decidable (∀ f ∈ w.db.files.rows, w.bucket.bytesAt f.key = some (own f.id)))

instance moversQuiescentDecidable (s : Movers FileID (Fin 3)) : Decidable s.Quiescent :=
  inferInstanceAs (Decidable (∀ i, (s.movers i).inFlight = false))

instance copiesLockedKeyDecidable (req : Fin 3 → MoveFileRequest) (s : Movers FileID (Fin 3)) :
    (a : MoversAction (Fin 3)) → Decidable (CopiesLockedKey req s a)
  | .step i => inferInstanceAs (Decidable ((s.movers i).copiesLockedKey (req i) = true))
  | .tick _ => isTrue trivial

def threeMoves : Fin 3 → MoveFileRequest
  | 0 => ⟨1, ascii "B"⟩
  | 1 => ⟨1, ascii "C"⟩
  | 2 => ⟨2, ascii "B"⟩

def twoFiles : Movers FileID (Fin 3) where
  world :=
    { db := ⟨⟨[⟨1, ascii "A", 0, 0, 0⟩, ⟨2, ascii "D", 0, 0, 0⟩], 3,
        by decide, by decide, by decide⟩, ∅⟩
      previewKeys _ := none
      bucket := ((∅ : Bucket FileID).put 0 (ascii "A") 1).put 0 (ascii "D") 2
      locks _ := none
      now := 0 }
  movers _ := .getFile

def steps (i : Fin 3) (n : Nat) : List (MoversAction (Fin 3)) := List.replicate n (.step i)

-- mover 1 has locked A and C, re-reads B, and deletes B only after mover 2 has taken it
def staleSource : List (MoversAction (Fin 3)) :=
  steps 1 2 ++ steps 0 12 ++ steps 1 7 ++ steps 2 12 ++ steps 1 3

theorem third_key_unlocked : twoFiles.Initial id ∧
    ¬Transition.EveryState (Movers.step (ascii ".index/") threeMoves)
      (fun t => t.Quiescent → RowsHoldOwnBytes id t.world) twoFiles staleSource :=
  ⟨⟨fun _ => rfl, fun _ => rfl, by decide⟩, by decide⟩

def contendedMoves : List (MoversAction (Fin 3)) :=
  steps 0 7 ++ steps 2 2 ++ steps 0 5 ++ steps 2 3 ++ steps 1 2 ++ steps 2 3 ++ steps 1 10

theorem rows_hold_own_bytes_contended :
    (Transition.exec (Movers.step (ascii ".index/") threeMoves) twoFiles contendedMoves).map
        (fun t => t.world.bucket.objects.map ObjectInfo.key) = some [ascii "C", ascii "D"] ∧
      Transition.EveryState (Movers.step (ascii ".index/") threeMoves)
        (fun t => RowsHoldOwnBytes id t.world) twoFiles contendedMoves := by
  refine ⟨by decide, ?_⟩
  exact rows_hold_own_bytes _ _ _ _ ⟨fun _ => rfl, fun _ => rfl, by decide⟩ _ (by decide)

end Runs

end FileIndexer
