import FileIndexer.Foundation.Runs
import FileIndexer.Service.Files.MoveFile

namespace FileIndexer

open Transition

def MoveState.connections : MoveState → Nat
  | .getFileLocked _ | .getFileByKeyLocked _ _ | .moveFileWithDirectories _ _ => 2
  | .done _ => 0
  | _ => 1

-- the pinned connection, between AcquireMoveLocks and release
def MoveState.kept : MoveState → Nat
  | .getFileLocked _ | .getFileByKeyLocked _ _ | .copy _ _ | .moveFileWithDirectories _ _
  | .rollbackDelete _ _ | .deleteOld _ _ _ | .release _ _ => 1
  | _ => 0

-- a query gives its connection back when it ends, a lock call when it fails
def MoveState.returnsConnection : MoveState → MoveState → Bool
  | .getFile, _ | .getFileByKey _, _ | .getFileLocked _, _ | .getFileByKeyLocked _ _, _
  | .moveFileWithDirectories _ _, _ | .release _ _, _ | .readBack _, _ => true
  | .acquireMoveLocks _ _, .done _ => true
  | _, _ => false

def MoveState.pins : MoveState → Bool
  | .acquireMoveLocks _ _ => true
  | _ => false

def MoveState.needsAnother : MoveState → Bool
  | .acquireMoveLocks _ _ | .getFileLocked _ | .getFileByKeyLocked _ _ | .copy _ _
  | .moveFileWithDirectories _ _ => true
  | _ => false

def MoveState.mayHoldLocks (m : MoveState) : Bool := m.pins || m.kept = 1

def MoveState.ended : MoveState → Bool
  | .done _ => true
  | _ => false

def MoveState.oldKey? : MoveState → Option Key
  | .getFileByKey old | .acquireMoveLocks old _ => some old
  | _ => none

def MoveState.waitingKeys : MoveState → List Key
  | .acquireMoveLocks _ waiting => waiting
  | _ => []

-- pool: the requests that have a connection out, once for each connection
structure PooledMovers (β ι : Type) where
  world : World β ι
  movers : ι → MoveState
  pool : List ι

inductive PooledAction (ι : Type) where
  | step (i : ι) (fault : Fault)
  | tick (d : Nat)

namespace PooledMovers

section System

variable {β ι : Type} [DecidableEq ι]

def step (n : Nat) (indexPrefix : Key) (req : ι → MoveFileRequest) (s : PooledMovers β ι) :
    PooledAction ι → Option (PooledMovers β ι)
  | .step i fault =>
    if s.pool.count i < (s.movers i).connections then
      if s.pool.length < n then some { s with pool := i :: s.pool } else none
    else
      (moveFileStep indexPrefix (req i) i fault s.world (s.movers i)).map fun (w, m) =>
        { world := w
          movers := Function.update s.movers i m
          pool := if (s.movers i).returnsConnection m then s.pool.erase i else s.pool }
  | .tick d => some { s with world := { s.world with now := s.world.now + d } }

def Stuck (n : Nat) (indexPrefix : Key) (req : ι → MoveFileRequest) (s : PooledMovers β ι) : Prop :=
  (∃ i, (s.movers i).ended = false) ∧ ∀ i, s.step n indexPrefix req (.step i .none) = none

def needy (s : PooledMovers β ι) : List ι := s.pool.dedup.filter fun i => (s.movers i).needsAnother

def PinsInTime (n : Nat) (s : PooledMovers β ι) : PooledAction ι → Prop
  | .step i _ => (s.movers i).pins = true → s.pool.count i = 0 → s.needy.length + 1 < n
  | .tick _ => True

structure Initial (s : PooledMovers β ι) : Prop where
  idle : ∀ i, s.movers i = .getFile
  unlocked : ∀ k, s.world.locks k = none
  pool : s.pool = []

end System

structure Distinct {β ι : Type} (req : ι → MoveFileRequest) (w : World β ι) : Prop where
  files : ∀ i j, (req i).id = (req j).id → i = j
  destinations : ∀ i j, (req i).destinationKey = (req j).destinationKey → i = j
  sources : ∀ i j, ∀ f ∈ w.db.files.rows, f.id = (req i).id → f.key = (req j).destinationKey → i = j

section Locks

variable {β ι : Type} {indexPrefix : Key} {req : ι → MoveFileRequest} {w₀ w w' : World β ι}
  {movers : ι → MoveState} {i : ι} {fault : Fault} {m' : MoveState}

def Mine (req : ι → MoveFileRequest) (w₀ : World β ι) (i : ι) (k : Key) : Prop :=
  k = (req i).destinationKey ∨ ∃ f ∈ w₀.db.files.rows, f.id = (req i).id ∧ f.key = k

theorem Distinct.eq_of_mine (h : Distinct req w₀) {j : ι} {k : Key} (hi : Mine req w₀ i k)
    (hj : Mine req w₀ j k) : i = j := by
  rcases hi with rfl | ⟨f, hf, hfi, rfl⟩
  · rcases hj with hkey | ⟨g, hg, hgj, hkey⟩
    · exact h.destinations i j hkey
    · exact (h.sources j i g hg hgj hkey).symm
  · rcases hj with hkey | ⟨g, hg, hgj, hkey⟩
    · exact h.sources i j f hf hfi hkey
    · obtain rfl := Files.eq_of_key hg hf hkey
      exact h.files i j (hfi.symm.trans hgj)

structure LockInv (req : ι → MoveFileRequest) (w₀ w : World β ι) (movers : ι → MoveState) :
    Prop where
  rows : ∀ f ∈ w.db.files.rows, ∀ i, f.id = (req i).id → Mine req w₀ i f.key
  oldKey : ∀ i, ∀ old ∈ (movers i).oldKey?, Mine req w₀ i old
  waiting : ∀ i, (movers i).waitingKeys.Nodup ∧ ∀ k ∈ (movers i).waitingKeys, Mine req w₀ i k
  locks : ∀ k i, w.locks k = some i →
    Mine req w₀ i k ∧ (movers i).mayHoldLocks = true ∧ k ∉ (movers i).waitingKeys

theorem rows_of_moveStep [DecidableEq ι] (hd : Distinct req w₀)
    (hrows : ∀ f ∈ w.db.files.rows, ∀ i, f.id = (req i).id → Mine req w₀ i f.key)
    (h : MoveStep indexPrefix (req i) i fault w (movers i) w' m') :
    ∀ f ∈ w'.db.files.rows, ∀ j, f.id = (req j).id → Mine req w₀ j f.key := by
  rcases (db_of_moveStep h).2 with hsame | ⟨-, -, moved, hdb⟩
  · rwa [hsame]
  · obtain ⟨old, -, -, ⟨hfree, hfiles⟩, -⟩ := Db.moveFileWithDirectories_ok hdb
    intro f hf j hj
    rw [hfiles] at hf
    obtain ⟨g, hg, rfl⟩ := Files.mem_rekey.mp hf
    rw [Files.rekeyed_id] at hj
    by_cases hgi : g.id = (req i).id
    · obtain rfl := hd.files i j (hgi.symm.trans hj)
      exact Or.inl (by simp [Files.rekeyed, hgi])
    · simpa [Files.rekeyed, hgi] using hrows g hg j hj

theorem nodup_lockKeys (old new : Key) : (lockKeys old new).Nodup :=
  (List.perm_insertionSort _ _).nodup_iff.mpr (List.nodup_dedup _)

theorem keys_of_moveStep [DecidableEq ι] (h : LockInv req w₀ w movers)
    (hstep : MoveStep indexPrefix (req i) i fault w (movers i) w' m') :
    (∀ old ∈ m'.oldKey?, Mine req w₀ i old) ∧
      m'.waitingKeys.Nodup ∧ ∀ k ∈ m'.waitingKeys, Mine req w₀ i k := by
  have hnone : (∀ old ∈ (none : Option Key), Mine req w₀ i old) ∧
      ([] : List Key).Nodup ∧ ∀ k ∈ ([] : List Key), Mine req w₀ i k := by simp
  have hold := h.oldKey i
  have hwait := h.waiting i
  generalize movers i = m at hstep hold hwait
  cases hstep with
  | read hf hv =>
    refine ⟨fun old ho => ?_, hnone.2⟩
    obtain rfl := Option.some.inj ho
    obtain ⟨g, hg, rfl⟩ := Option.map_eq_some_iff.mp hf
    obtain ⟨hmem, hid⟩ := Files.getFile_eq_some_iff.mp hg
    exact h.rows g hmem i hid
  | vacant hv =>
    refine ⟨hold, nodup_lockKeys _ _, fun k hk => ?_⟩
    rcases mem_lockKeys.mp hk with rfl | rfl
    · exact hold _ rfl
    · exact Or.inl rfl
  | locked hfree =>
    exact ⟨hold, (List.nodup_cons.mp hwait.1).2, fun k hk => hwait.2 k (List.mem_cons_of_mem _ hk)⟩
  | released hm => rcases hm with ⟨f, rfl⟩ | ⟨e, rfl⟩ <;> exact hnone
  | _ => exact hnone

theorem locks_of_moveStep [DecidableEq ι] (h : LockInv req w₀ w movers)
    (hstep : MoveStep indexPrefix (req i) i fault w (movers i) w' m') (k : Key) :
    (∀ j ≠ i, w'.locks k = some j → w.locks k = some j) ∧
      (w'.locks k = some i → Mine req w₀ i k ∧ m'.mayHoldLocks = true ∧ k ∉ m'.waitingKeys) := by
  have hheld := h.locks k i
  have hwait := h.waiting i
  have hunlock : (∀ j ≠ i, (w.unlock i).locks k = some j → w.locks k = some j) ∧
      (w.unlock i).locks k ≠ some i := by
    refine ⟨fun j hji hj => ?_, ?_⟩
    · simp only [World.unlock] at hj
      split at hj
      · cases hj
      · exact hj
    · simp only [World.unlock]
      split
      · simp
      · assumption
  generalize movers i = m at hstep hheld hwait
  cases hstep with
  | lockFailed e => exact ⟨hunlock.1, fun hk => absurd hk hunlock.2⟩
  | released hm => exact ⟨hunlock.1, fun hk => absurd hk hunlock.2⟩
  | locked hfree =>
    rename_i old key ks
    refine ⟨fun j hji hj => ?_, fun hk => ?_⟩
    · rcases eq_or_ne k key with rfl | hne
      · simp only [World.lock, Function.update_self, Option.some.injEq] at hj
        exact absurd hj.symm hji
      · simpa [World.lock, hne] using hj
    · rcases eq_or_ne k key with rfl | hne
      · exact ⟨hwait.2 k List.mem_cons_self, rfl, (List.nodup_cons.mp hwait.1).1⟩
      · obtain ⟨hmine, -, hnot⟩ := hheld (by simpa [World.lock, hne] using hk)
        exact ⟨hmine, rfl, fun hmem => hnot (List.mem_cons_of_mem _ hmem)⟩
  | refused e hm =>
    refine ⟨fun j _ hj => hj, fun hk => ?_⟩
    rcases hm with rfl | ⟨old, rfl⟩ <;> cases (hheld hk).2.1
  | read hf hv => exact ⟨fun j _ hj => hj, fun hk => by cases (hheld hk).2.1⟩
  | vacant hv => exact ⟨fun j _ hj => hj, fun hk => by cases (hheld hk).2.1⟩
  | answered => exact ⟨fun j _ hj => hj, fun hk => by cases (hheld hk).2.1⟩
  | rolledBack e =>
    refine ⟨fun j _ hj => ?_, fun hk => ⟨(hheld ?_).1, rfl, List.not_mem_nil⟩⟩
    · split at hj <;> exact hj
    · split at hk <;> exact hk
  | cleaned =>
    refine ⟨fun j _ hj => ?_, fun hk => ⟨(hheld ?_).1, rfl, List.not_mem_nil⟩⟩
    · split at hj <;> exact hj
    · split at hk <;> exact hk
  | _ => exact ⟨fun j _ hj => hj, fun hk => ⟨(hheld hk).1, rfl, List.not_mem_nil⟩⟩

theorem LockInv.next [DecidableEq ι] (hd : Distinct req w₀) (h : LockInv req w₀ w movers)
    (hstep : MoveStep indexPrefix (req i) i fault w (movers i) w' m') :
    LockInv req w₀ w' (Function.update movers i m') := by
  obtain ⟨hold, hwait⟩ := keys_of_moveStep h hstep
  refine ⟨rows_of_moveStep hd h.rows hstep, fun j => ?_, fun j => ?_, fun k j hk => ?_⟩
  · rcases eq_or_ne j i with rfl | hji
    · rw [Function.update_self]
      exact hold
    · rw [Function.update_of_ne hji]
      exact h.oldKey j
  · rcases eq_or_ne j i with rfl | hji
    · rw [Function.update_self]
      exact hwait
    · rw [Function.update_of_ne hji]
      exact h.waiting j
  · obtain ⟨hothers, hown⟩ := locks_of_moveStep h hstep k
    rcases eq_or_ne j i with rfl | hji
    · rw [Function.update_self]
      exact hown hk
    · rw [Function.update_of_ne hji]
      exact h.locks k j (hothers j hji hk)

theorem LockInv.free [DecidableEq ι] (hd : Distinct req w₀) (h : LockInv req w₀ w movers) {old k : Key}
    {ks : List Key} (hi : movers i = .acquireMoveLocks old (k :: ks)) : w.locks k = none := by
  cases hk : w.locks k with
  | none => rfl
  | some j =>
    obtain ⟨hmine, -, hnot⟩ := h.locks k j hk
    have hwait := (h.waiting i).2
    rw [hi] at hwait
    obtain rfl := hd.eq_of_mine (hwait k List.mem_cons_self) hmine
    rw [hi] at hnot
    exact absurd List.mem_cons_self hnot

end Locks

section Connections

variable {β ι : Type} [DecidableEq ι] {indexPrefix : Key} {req : ι → MoveFileRequest}
  {w w' : World β ι} {i : ι} {fault : Fault} {m m' : MoveState}

theorem step_enabled (r : MoveFileRequest) (hm : m.ended = false)
    (hfree : ∀ old k ks, m = .acquireMoveLocks old (k :: ks) → w.locks k = none) :
    moveFileStep indexPrefix r i .none w m ≠ none := by
  cases m with
  | acquireMoveLocks old ks =>
    cases ks with
    | nil => simp [moveFileStep]
    | cons k ks => simp [moveFileStep, hfree old k ks rfl]
  | done result => cases hm
  | rollbackDelete old cause => simp [moveFileStep]
  | deleteOld old cur f => simp [moveFileStep]
  | release old result => cases result <;> simp [moveFileStep]
  | getFile =>
    simp only [moveFileStep]
    split
    · simp
    · split
      · simp
      · split <;> simp
  | getFileByKey old | getFileLocked old | getFileByKeyLocked old cur | readBack id =>
    simp only [moveFileStep]
    split
    · simp
    · split <;> simp
  | copy old cur =>
    simp only [moveFileStep]
    split
    · simp
    · split
      · simp
      · split <;> simp
  | moveFileWithDirectories old cur =>
    simp only [moveFileStep]
    split
    · simp
    · split
      · split <;> simp
      · simp
      · simp

theorem connections_of_moveStep {r : MoveFileRequest}
    (h : MoveStep indexPrefix r i fault w m w' m') :
    m'.kept ≤ (if m.returnsConnection m' then m.connections - 1 else m.connections) ∧
      (if m.returnsConnection m' then m.connections - 1 else m.connections) ≤ m'.connections := by
  cases h with
  | refused e hm =>
    rcases hm with rfl | ⟨old, rfl⟩ <;>
      simp [MoveState.kept, MoveState.connections, MoveState.returnsConnection]
  | abandoned e hm =>
    rcases hm with rfl | ⟨cur, rfl⟩ <;>
      simp [MoveState.kept, MoveState.connections, MoveState.returnsConnection]
  | released hm =>
    rcases hm with ⟨f, rfl⟩ | ⟨e, rfl⟩ <;>
      simp [MoveState.kept, MoveState.connections, MoveState.returnsConnection]
  | _ => simp [MoveState.kept, MoveState.connections, MoveState.returnsConnection]

theorem needsAnother_of_moveStep {r : MoveFileRequest}
    (h : MoveStep indexPrefix r i fault w m w' m') (hm' : m'.needsAnother = true) :
    m.needsAnother = true ∨ (m.connections = 1 ∧ m.returnsConnection m' = true) := by
  cases h with
  | released hm => rcases hm with ⟨f, rfl⟩ | ⟨e, rfl⟩ <;> cases hm'
  | abandoned e hm => cases hm'
  | vacant hv => exact Or.inr ⟨rfl, rfl⟩
  | lockedAll => exact Or.inl rfl
  | locked hfree => exact Or.inl rfl
  | reread hf => exact Or.inl rfl
  | recheck hv => exact Or.inl rfl
  | copied ho hf => exact Or.inl rfl
  | _ => cases hm'

theorem kept_pos_or_pins (h : m.needsAnother = true) : m.kept = 1 ∨ m.pins = true := by
  cases m <;> first | exact Or.inl rfl | exact Or.inr rfl | cases h

theorem needsAnother_of_connections (h : 1 < m.connections) : m.needsAnother = true ∧
    m.connections = 2 := by
  cases m <;> first | exact ⟨rfl, rfl⟩ | simp [MoveState.connections] at h

theorem connections_of_ended (h : m.ended = true) : m.connections = 0 := by
  cases m <;> first | rfl | cases h

end Connections

section Invariant

variable {β ι : Type} [DecidableEq ι] {n : Nat} {indexPrefix : Key} {req : ι → MoveFileRequest}
  {w₀ : World β ι} {s t : PooledMovers β ι}

structure Inv (n : Nat) (req : ι → MoveFileRequest) (w₀ : World β ι) (s : PooledMovers β ι) :
    Prop where
  locks : LockInv req w₀ s.world s.movers
  counts : ∀ i, (s.movers i).kept ≤ s.pool.count i ∧ s.pool.count i ≤ (s.movers i).connections
  needy : s.needy.length < n

theorem mem_needy {i : ι} : i ∈ s.needy ↔ i ∈ s.pool ∧ (s.movers i).needsAnother = true := by
  rw [needy, List.mem_filter, List.mem_dedup]

theorem needy_length_le {l : List ι} (h : ∀ i ∈ s.needy, i ∈ l) : s.needy.length ≤ l.length :=
  ((List.nodup_dedup s.pool).filter _).subperm (fun i hi => h i hi) |>.length_le

theorem Initial.inv (hn : 0 < n) (hs : s.Initial) : Inv n req s.world s := by
  refine ⟨⟨fun f hf i hi => Or.inr ⟨f, hf, hi, rfl⟩, fun i old ho => ?_, fun i => ?_,
    fun k i hk => ?_⟩, fun i => ?_, ?_⟩
  · rw [hs.idle i] at ho
    cases ho
  · rw [hs.idle i]
    exact ⟨List.nodup_nil, fun k hk => by cases hk⟩
  · rw [hs.unlocked k] at hk
    cases hk
  · rw [hs.idle i, hs.pool]
    exact ⟨le_refl _, Nat.zero_le _⟩
  · rw [needy, hs.pool]
    exact hn

theorem Inv.acquire (h : Inv n req w₀ s) {i : ι}
    (hcount : s.pool.count i < (s.movers i).connections)
    (hok : (s.movers i).pins = true → s.pool.count i = 0 → s.needy.length + 1 < n) :
    Inv n req w₀ { s with pool := i :: s.pool } := by
  refine ⟨h.locks, fun j => ?_, ?_⟩
  · rcases eq_or_ne j i with rfl | hji
    · rw [List.count_cons_self]
      exact ⟨(h.counts j).1.trans (Nat.le_succ _), hcount⟩
    · rw [List.count_cons_of_ne hji.symm]
      exact h.counts j
  · by_cases hpin : (s.movers i).pins = true ∧ s.pool.count i = 0
    · refine lt_of_le_of_lt (needy_length_le (l := i :: s.needy) fun j hj => ?_)
        (hok hpin.1 hpin.2)
      obtain ⟨hmem, hneeds⟩ := mem_needy.mp hj
      rcases List.mem_cons.mp hmem with rfl | hmem
      · exact List.mem_cons_self
      · exact List.mem_cons_of_mem _ (mem_needy.mpr ⟨hmem, hneeds⟩)
    · refine lt_of_le_of_lt (needy_length_le (l := s.needy) fun j hj => ?_) h.needy
      obtain ⟨hmem, hneeds⟩ := mem_needy.mp hj
      rcases List.mem_cons.mp hmem with rfl | hmem
      · refine mem_needy.mpr ⟨List.count_pos_iff.mp ?_, hneeds⟩
        have hkept : (s.movers j).kept ≤ s.pool.count j := (h.counts j).1
        rcases kept_pos_or_pins (m := s.movers j) hneeds with hone | hpins
        · omega
        · exact Nat.pos_of_ne_zero fun hzero => hpin ⟨hpins, hzero⟩
      · exact mem_needy.mpr ⟨hmem, hneeds⟩

theorem Inv.run (hd : Distinct req w₀) (h : Inv n req w₀ s) {i : ι} {fault : Fault}
    {w' : World β ι} {m' : MoveState} (hcount : (s.movers i).connections ≤ s.pool.count i)
    (hstep : MoveStep indexPrefix (req i) i fault s.world (s.movers i) w' m') :
    Inv n req w₀
      { world := w'
        movers := Function.update s.movers i m'
        pool := if (s.movers i).returnsConnection m' then s.pool.erase i else s.pool } := by
  have heq : s.pool.count i = (s.movers i).connections := (h.counts i).2.antisymm hcount
  have hsub : ∀ j ∈ (if (s.movers i).returnsConnection m' then s.pool.erase i else s.pool),
      j ∈ s.pool := by
    intro j hj
    split at hj
    · exact List.mem_of_mem_erase hj
    · exact hj
  refine ⟨h.locks.next hd hstep, fun j => ?_, ?_⟩
  · rcases eq_or_ne j i with rfl | hji
    · have hconn := connections_of_moveStep hstep
      have hleft : (if (s.movers j).returnsConnection m' then s.pool.erase j else s.pool).count j =
          if (s.movers j).returnsConnection m' then (s.movers j).connections - 1
          else (s.movers j).connections := by
        split
        · rw [List.count_erase_self, heq]
        · exact heq
      simp only [Function.update_self]
      rw [hleft]
      exact hconn
    · have hsame : (if (s.movers i).returnsConnection m' then s.pool.erase i else s.pool).count j =
          s.pool.count j := by
        split
        · exact List.count_erase_of_ne hji
        · rfl
      simp only [Function.update_of_ne hji]
      rw [hsame]
      exact h.counts j
  · refine lt_of_le_of_lt (needy_length_le (l := s.needy) fun j hj => ?_) h.needy
    obtain ⟨hmem, hneeds⟩ := mem_needy.mp hj
    rcases eq_or_ne j i with rfl | hji
    · simp only [Function.update_self] at hneeds
      rcases needsAnother_of_moveStep hstep hneeds with hold | ⟨hone, hreturns⟩
      · exact mem_needy.mpr ⟨hsub j hmem, hold⟩
      · rw [hone] at heq
        rw [if_pos hreturns, ← List.count_pos_iff, List.count_erase_self, heq] at hmem
        exact absurd hmem (by decide)
    · simp only [Function.update_of_ne hji] at hneeds
      exact mem_needy.mpr ⟨hsub j hmem, hneeds⟩

theorem inv_preserved (hd : Distinct req w₀) :
    Preserves (step n indexPrefix req) (PinsInTime n) (Inv n req w₀ (β := β)) := by
  intro s a t h hok ht
  cases a with
  | tick d =>
    obtain rfl := Option.some.inj ht
    exact ⟨⟨h.locks.rows, h.locks.oldKey, h.locks.waiting, h.locks.locks⟩, h.counts, h.needy⟩
  | step i fault =>
    rw [step] at ht
    split at ht
    · rename_i hcount
      split at ht
      · obtain rfl := Option.some.inj ht
        exact h.acquire hcount hok
      · cases ht
    · rename_i hcount
      obtain ⟨⟨w', m'⟩, hwm, rfl⟩ := Option.map_eq_some_iff.mp ht
      exact h.run hd (Nat.le_of_not_lt hcount) (moveStep_of_step hwm)

theorem Inv.unstuck (hd : Distinct req w₀) (h : Inv n req w₀ s) : ¬s.Stuck n indexPrefix req := by
  rintro ⟨⟨i₀, hi₀⟩, hnone⟩
  have hwaits : ∀ i, (s.movers i).ended = false →
      s.pool.count i < (s.movers i).connections ∧ n ≤ s.pool.length := by
    intro i hi
    have hstep := hnone i
    rw [step] at hstep
    split at hstep
    · rename_i hcount
      split at hstep
      · cases hstep
      · rename_i hlen
        exact ⟨hcount, Nat.le_of_not_lt hlen⟩
    · exact absurd (Option.map_eq_none_iff.mp hstep)
        (step_enabled (req i) hi fun old k ks hm => h.locks.free hd hm)
  have hpool : ∀ i ∈ s.pool, (s.movers i).needsAnother = true ∧ s.pool.count i ≤ 1 := by
    intro i hi
    have hpos := List.count_pos_iff.mpr hi
    have hle := (h.counts i).2
    cases hfin : (s.movers i).ended with
    | true =>
      have hzero := connections_of_ended hfin
      omega
    | false =>
      have hlt := (hwaits i hfin).1
      obtain ⟨hneeds, htwo⟩ := needsAnother_of_connections (m := s.movers i) (by omega)
      exact ⟨hneeds, by omega⟩
  have hnodup : s.pool.Nodup := List.nodup_iff_count_le_one.mpr fun i => by
    by_cases hi : i ∈ s.pool
    · exact (hpool i hi).2
    · rw [List.count_eq_zero.mpr hi]
      exact Nat.zero_le 1
  have hall : s.needy = s.pool := by
    rw [PooledMovers.needy, hnodup.dedup, List.filter_eq_self]
    exact fun i hi => (hpool i hi).1
  have hfull := (hwaits i₀ hi₀).2
  have hlt := h.needy
  rw [hall] at hlt
  omega

theorem not_stuck (hn : 0 < n) (indexPrefix : Key) (req : ι → MoveFileRequest)
    (s : PooledMovers β ι) (hs : s.Initial) (hd : Distinct req s.world) (as : List (PooledAction ι))
    (hok : EveryStep (step n indexPrefix req) (PinsInTime n) s as) :
    EveryState (step n indexPrefix req) (fun t => ¬t.Stuck n indexPrefix req) s as :=
  (everyState_of_preserves (inv_preserved hd) as (hs.inv hn) hok).mono fun _ ht => ht.unstuck hd

end Invariant

section Exhausted

def twoRequests : Fin 2 → MoveFileRequest
  | 0 => ⟨1, ascii "B"⟩
  | 1 => ⟨2, ascii "E"⟩

def idlePair : PooledMovers FileID (Fin 2) where
  world :=
    { db := ⟨⟨[⟨1, ascii "A", 1, 1, 1⟩, ⟨2, ascii "D", 1, 1, 1⟩], 3,
        by decide, by decide, by decide⟩, ∅⟩
      previewKeys _ := none
      bucket := ((∅ : Bucket FileID).put 1 (ascii "A") 1).put 1 (ascii "D") 2
      locks _ := none
      now := 1 }
  movers _ := .getFile
  pool := []

def turns (i : Fin 2) (n : Nat) : List (PooledAction (Fin 2)) := List.replicate n (.step i .none)

theorem idlePair_initial : idlePair.Initial := ⟨fun _ => rfl, fun _ => rfl, rfl⟩

theorem idlePair_distinct : Distinct twoRequests idlePair.world := by
  refine ⟨by decide, by decide, by decide⟩

instance pinsInTime_decidable (s : PooledMovers FileID (Fin 2)) :
    (a : PooledAction (Fin 2)) → Decidable (PinsInTime 2 s a)
  | .step i _ => inferInstanceAs (Decidable
      ((s.movers i).pins = true → s.pool.count i = 0 → s.needy.length + 1 < 2))
  | .tick _ => isTrue trivial

theorem two_movers_exhaust_pool : ¬EveryState (step 2 (ascii ".index/") twoRequests)
    (fun t => ¬t.Stuck 2 (ascii ".index/") twoRequests) idlePair (turns 0 8 ++ turns 1 8) := by
  intro h
  have hrun : (exec (step 2 (ascii ".index/") twoRequests) idlePair (turns 0 8 ++ turns 1 8)).map
      (fun t => (t.pool, fun i => (t.movers i).connections)) = some ([1, 0], fun _ => 2) := by
    decide
  obtain ⟨t, hexec, ht⟩ := Option.map_eq_some_iff.mp hrun
  obtain ⟨hpool, hconn⟩ := Prod.mk.inj ht
  have hwaits : ∀ i : Fin 2, t.pool.count i < (t.movers i).connections := by
    intro i
    rw [hpool, show (t.movers i).connections = 2 from congrFun hconn i]
    revert i
    decide
  refine h.last hexec ⟨⟨0, ?_⟩, fun i => ?_⟩
  · have htwo : (t.movers 0).connections = 2 := congrFun hconn 0
    generalize t.movers 0 = m at htwo
    cases m <;> first | rfl | cases htwo
  · rw [step, if_pos (hwaits i), hpool, if_neg (by decide)]

theorem two_movers_in_time : EveryState (step 2 (ascii ".index/") twoRequests)
    (fun t => ¬t.Stuck 2 (ascii ".index/") twoRequests) idlePair (turns 0 19 ++ turns 1 19) :=
  not_stuck (by decide) _ _ _ idlePair_initial idlePair_distinct _ (by decide)

end Exhausted

end PooledMovers

end FileIndexer
