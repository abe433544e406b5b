import FileIndexer.Foundation.LockOrder
import FileIndexer.Foundation.Runs
import FileIndexer.Service.Files.MoveFile

namespace FileIndexer

open Relation Transition

abbrev LockID := BitVec 32

inductive LockCall where
  | acquire
  | locking (waiting locked : List Key)
  | held (locked : List Key)
  | unlocking (locked : List Key)
  | done
  deriving DecidableEq, Repr

def LockCall.locked : LockCall → List Key
  | .locking _ locked | .held locked | .unlocking locked => locked
  | .acquire | .done => []

-- sessions: the holders of each advisory lock, one entry for each time it was taken
structure MoveLocks (ι : Type) where
  sessions : LockID → List ι
  calls : ι → LockCall

-- fail ends a lock call with an error, Postgres's own deadlock error included
inductive LockAction (ι : Type) where
  | step (i : ι)
  | fail (i : ι)

namespace MoveLocks

variable {ι : Type} [DecidableEq ι] (hashtext : Key → LockID) (moves : ι → Key × Key)

def initial : MoveLocks ι := ⟨fun _ => [], fun _ => .acquire⟩

def setCall (s : MoveLocks ι) (i : ι) (c : LockCall) : MoveLocks ι :=
  { s with calls := Function.update s.calls i c }

-- pg_advisory_lock: a session may take a lock it has again
def advisoryLock (s : MoveLocks ι) (i : ι) (k : Key) : Option (MoveLocks ι) :=
  if (s.sessions (hashtext k)).all (· = i) then
    some { s with
      sessions := Function.update s.sessions (hashtext k) (i :: s.sessions (hashtext k)) }
  else none

def advisoryUnlock (s : MoveLocks ι) (i : ι) (k : Key) : MoveLocks ι :=
  { s with
    sessions := Function.update s.sessions (hashtext k) ((s.sessions (hashtext k)).erase i) }

def step (s : MoveLocks ι) : LockAction ι → Option (MoveLocks ι)
  | .step i =>
    match s.calls i with
    | .acquire => some (s.setCall i (.locking (lockKeys (moves i).1 (moves i).2) []))
    | .locking (k :: waiting) locked =>
      (s.advisoryLock hashtext i k).map (·.setCall i (.locking waiting (locked ++ [k])))
    | .locking [] locked => some (s.setCall i (.held locked))
    | .held locked => some (s.setCall i (.unlocking locked))
    | .unlocking (k :: locked) =>
      some ((s.advisoryUnlock hashtext i k).setCall i (.unlocking locked))
    | .unlocking [] => some (s.setCall i .done)
    | .done => none
  | .fail i =>
    match s.calls i with
    | .acquire => some (s.setCall i .done)
    | .locking _ locked => some (s.setCall i (.unlocking locked))
    | _ => none

def parties (s : MoveLocks ι) : LockOrder.Parties ι LockID where
  holds i x := i ∈ s.sessions x
  wants i :=
    match s.calls i with
    | .locking (k :: _) _ => some (hashtext k)
    | _ => none

def first (i : ι) : LockID := hashtext (min (moves i).1 (moves i).2)

def second (i : ι) : LockID := hashtext (max (moves i).1 (moves i).2)

def TakenBefore (x y : LockID) : Prop :=
  ∃ i, first hashtext moves i = x ∧ second hashtext moves i = y ∧ x ≠ y

section Keys

theorem lockKeys_of_lt {a b : Key} (h : a < b) :
    lockKeys a b = [a, b] ∧ lockKeys b a = [a, b] := by
  have hab : a ≠ b := ne_of_lt h
  have hnot : ¬b ≤ a := not_le.mpr h
  constructor <;> simp [lockKeys, List.dedup_cons_of_notMem, hab, hab.symm, h.le, hnot,
    List.insertionSort_cons, List.orderedInsert]

theorem lockKeys_of_ne {a b : Key} (h : a ≠ b) : lockKeys a b = [min a b, max a b] := by
  rcases lt_or_gt_of_ne h with hlt | hgt
  · rw [(lockKeys_of_lt hlt).1, min_eq_left hlt.le, max_eq_right hlt.le]
  · rw [(lockKeys_of_lt hgt).2, min_eq_right hgt.le, max_eq_left hgt.le]

theorem lockKeys_between {old new k l : Key} {locked waiting : List Key}
    (h : locked ++ k :: waiting = lockKeys old new) (hl : l ∈ locked) :
    l = min old new ∧ k = max old new := by
  rcases eq_or_ne old new with rfl | hne
  · have hlen := congrArg List.length h
    have hpos := List.length_pos_of_mem hl
    simp [lockKeys] at hlen
    omega
  · rw [lockKeys_of_ne hne] at h
    obtain ⟨a, rfl⟩ : ∃ a, locked = [a] := by
      have hlen := congrArg List.length h
      have hpos := List.length_pos_of_mem hl
      rw [List.length_append, List.length_cons] at hlen
      exact List.length_eq_one_iff.mp (by simp at hlen; omega)
    obtain rfl := List.mem_singleton.mp hl
    obtain ⟨ha, htail⟩ := List.cons.inj h
    exact ⟨ha, (List.cons.inj htail).1⟩

end Keys

section Invariant

structure Inv (s : MoveLocks ι) : Prop where
  exclusive : ∀ x, ∀ i ∈ s.sessions x, ∀ j ∈ s.sessions x, i = j
  recorded : ∀ i x, (s.sessions x).count i = ((s.calls i).locked.map hashtext).count x
  sorted : ∀ i waiting locked, s.calls i = .locking waiting locked →
    locked ++ waiting = lockKeys (moves i).1 (moves i).2

variable {hashtext moves} {s t : MoveLocks ι} {i : ι}

theorem inv_initial : Inv hashtext moves (initial : MoveLocks ι) := by
  refine ⟨fun x i hi => ?_, fun i x => rfl, fun i waiting locked h => ?_⟩
  · cases hi
  · cases h

theorem Inv.setCall (h : Inv hashtext moves s) {c : LockCall}
    (hlocked : c.locked = (s.calls i).locked)
    (hsorted : ∀ waiting locked, c = .locking waiting locked →
      locked ++ waiting = lockKeys (moves i).1 (moves i).2) :
    Inv hashtext moves (s.setCall i c) := by
  refine ⟨h.exclusive, fun j x => ?_, fun j waiting locked hj => ?_⟩
  · rcases eq_or_ne j i with rfl | hne
    · simpa [MoveLocks.setCall, hlocked] using h.recorded j x
    · simpa [MoveLocks.setCall, hne] using h.recorded j x
  · rcases eq_or_ne j i with rfl | hne
    · exact hsorted waiting locked (by simpa [MoveLocks.setCall] using hj)
    · exact h.sorted j waiting locked (by simpa [MoveLocks.setCall, hne] using hj)

theorem Inv.lock (h : Inv hashtext moves s) {k : Key} {waiting locked : List Key}
    (hcall : s.calls i = .locking (k :: waiting) locked) (ht : s.advisoryLock hashtext i k = some t) :
    Inv hashtext moves (t.setCall i (.locking waiting (locked ++ [k]))) := by
  rw [advisoryLock] at ht
  split at ht
  · rename_i hfree
    obtain rfl := Option.some.inj ht
    refine ⟨fun x j hj j' hj' => ?_, fun j x => ?_, fun j waiting' locked' hj => ?_⟩
    · rcases eq_or_ne x (hashtext k) with rfl | hne
      · have hall : ∀ j ∈ i :: s.sessions (hashtext k), j = i := by simpa using hfree
        simp only [MoveLocks.setCall, Function.update_self] at hj hj'
        exact (hall j hj).trans (hall j' hj').symm
      · simp only [MoveLocks.setCall, Function.update_of_ne hne] at hj hj'
        exact h.exclusive x j hj j' hj'
    · have hold := h.recorded j x
      rcases eq_or_ne j i with rfl | hji
      · rw [hcall] at hold
        rcases eq_or_ne x (hashtext k) with rfl | hne
        · simpa [MoveLocks.setCall, LockCall.locked] using hold
        · simpa [MoveLocks.setCall, LockCall.locked, hne, hne.symm] using hold
      · rcases eq_or_ne x (hashtext k) with rfl | hne
        · simpa [MoveLocks.setCall, hji, hji.symm] using hold
        · simpa [MoveLocks.setCall, hji, hne] using hold
    · rcases eq_or_ne j i with rfl | hji
      · simp only [MoveLocks.setCall, Function.update_self, LockCall.locking.injEq] at hj
        obtain ⟨rfl, rfl⟩ := hj
        simpa using h.sorted j _ _ hcall
      · exact h.sorted j waiting' locked' (by simpa [MoveLocks.setCall, hji] using hj)
  · cases ht

theorem Inv.unlock (h : Inv hashtext moves s) {k : Key} {locked : List Key}
    (hcall : s.calls i = .unlocking (k :: locked)) :
    Inv hashtext moves ((s.advisoryUnlock hashtext i k).setCall i (.unlocking locked)) := by
  have hsub : ∀ x, (s.advisoryUnlock hashtext i k).sessions x ⊆ s.sessions x := by
    intro x
    rcases eq_or_ne x (hashtext k) with rfl | hne
    · simpa [advisoryUnlock] using List.erase_subset
    · simp [advisoryUnlock, hne]
  refine ⟨fun x j hj j' hj' => h.exclusive x j (hsub x hj) j' (hsub x hj'), fun j x => ?_,
    fun j waiting' locked' hj => ?_⟩
  · have hold := h.recorded j x
    rcases eq_or_ne j i with rfl | hji
    · rw [hcall] at hold
      rcases eq_or_ne x (hashtext k) with rfl | hne
      · have hcount : (s.sessions (hashtext k)).count j =
            (locked.map hashtext).count (hashtext k) + 1 := by simpa [LockCall.locked] using hold
        simp [MoveLocks.setCall, advisoryUnlock, LockCall.locked, hcount]
      · simpa [MoveLocks.setCall, advisoryUnlock, LockCall.locked, hne, hne.symm] using hold
    · rcases eq_or_ne x (hashtext k) with rfl | hne
      · simpa [MoveLocks.setCall, advisoryUnlock, hji] using hold
      · simpa [MoveLocks.setCall, advisoryUnlock, hji, hne] using hold
  · rcases eq_or_ne j i with rfl | hji
    · simp [MoveLocks.setCall] at hj
    · exact h.sorted j waiting' locked' (by simpa [MoveLocks.setCall, advisoryUnlock, hji] using hj)

theorem inv_preserved : Preserves (step hashtext moves) (fun _ _ => True)
    (Inv hashtext moves (ι := ι)) := by
  intro s a t h _ ht
  cases a with
  | step i =>
    rw [step] at ht
    split at ht
    · rename_i hcall
      obtain rfl := Option.some.inj ht
      refine h.setCall (by rw [hcall]; rfl) fun waiting locked hc => ?_
      cases hc
      rfl
    · rename_i hcall
      obtain ⟨t', ht', rfl⟩ := Option.map_eq_some_iff.mp ht
      exact h.lock hcall ht'
    · rename_i hcall
      obtain rfl := Option.some.inj ht
      exact h.setCall (by rw [hcall]; rfl) fun _ _ hc => by cases hc
    · rename_i hcall
      obtain rfl := Option.some.inj ht
      exact h.setCall (by rw [hcall]; rfl) fun _ _ hc => by cases hc
    · rename_i hcall
      obtain rfl := Option.some.inj ht
      exact h.unlock hcall
    · rename_i hcall
      obtain rfl := Option.some.inj ht
      exact h.setCall (by rw [hcall]; rfl) fun _ _ hc => by cases hc
    · cases ht
  | fail i =>
    rw [step] at ht
    split at ht
    · rename_i hcall
      obtain rfl := Option.some.inj ht
      exact h.setCall (by rw [hcall]; rfl) fun _ _ hc => by cases hc
    · rename_i hcall
      obtain rfl := Option.some.inj ht
      exact h.setCall (by rw [hcall]; rfl) fun _ _ hc => by cases hc
    · cases ht

theorem Inv.exclusive_parties (h : Inv hashtext moves s) : (s.parties hashtext).Exclusive :=
  fun i j x hi hj => h.exclusive x i hi j hj

theorem Inv.ordered_parties (h : Inv hashtext moves s) :
    (s.parties hashtext).Ordered (TakenBefore hashtext moves) := by
  intro i x hx y hy hne
  have hx' : i ∈ s.sessions x := hx
  have hlocked : x ∈ (s.calls i).locked.map hashtext := by
    rw [← List.count_pos_iff, ← h.recorded i x]
    exact List.count_pos_iff.mpr hx'
  obtain ⟨l, hl, rfl⟩ := List.mem_map.mp hlocked
  simp only [parties] at hy
  split at hy
  · rename_i k waiting locked hcall
    obtain rfl : hashtext k = y := Option.some.inj hy
    rw [hcall] at hl
    obtain ⟨rfl, rfl⟩ := lockKeys_between (h.sorted i _ _ hcall) hl
    exact ⟨i, rfl, rfl, hne⟩
  · cases hy

end Invariant

section Crossing

variable {hashtext : Key → LockID} {moves : ι → Key × Key} {s : MoveLocks ι}

def holding (moves : ι → Key × Key) (i : ι) : LockCall :=
  .locking [max (moves i).1 (moves i).2] [min (moves i).1 (moves i).2]

structure Halfway (hashtext : Key → LockID) (moves : ι → Key × Key) (s : MoveLocks ι) : Prop where
  calls : ∀ i, s.calls i = .acquire ∨
    s.calls i = holding moves i ∧ i ∈ s.sessions (first hashtext moves i)
  sessions : ∀ x, ∀ i ∈ s.sessions x, s.calls i = holding moves i ∧
    first hashtext moves i = x

omit [DecidableEq ι] in
theorem halfway_initial : Halfway hashtext moves (initial : MoveLocks ι) := by
  refine ⟨fun i => Or.inl rfl, fun x i hi => ?_⟩
  cases hi

theorem Halfway.take (h : Halfway hashtext moves s) {i : ι} (hne : (moves i).1 ≠ (moves i).2)
    (hfree : s.sessions (first hashtext moves i) = []) :
    ∃ t, exec (step hashtext moves) s [.step i, .step i] = some t ∧ Halfway hashtext moves t ∧
      i ∈ t.sessions (first hashtext moves i) ∧ (∀ x, s.sessions x ⊆ t.sessions x) ∧
      ∀ x, ∀ j ∈ t.sessions x, j = i ∨ j ∈ s.sessions x := by
  have hcall : s.calls i = .acquire := by
    refine (h.calls i).resolve_right fun hheld => ?_
    rw [hfree] at hheld
    cases hheld.2
  refine ⟨(MoveLocks.mk (Function.update s.sessions (first hashtext moves i) [i]) s.calls).setCall i
    (holding moves i), ?_, ⟨fun j => ?_, fun x j hj => ?_⟩, ?_, fun x => ?_,
    fun x j hj => ?_⟩
  · have hfree' : s.sessions (hashtext (min (moves i).1 (moves i).2)) = [] := hfree
    simp [exec, step, hcall, lockKeys_of_ne hne, MoveLocks.setCall, advisoryLock, hfree', holding,
      first]
  · rcases eq_or_ne j i with rfl | hji
    · simp [MoveLocks.setCall]
    · rcases h.calls j with hj | ⟨hj, hmem⟩
      · simp [MoveLocks.setCall, hji, hj]
      · have hfirst : first hashtext moves j ≠ first hashtext moves i := by
          intro he
          rw [he, hfree] at hmem
          cases hmem
        simp [MoveLocks.setCall, hji, hj, hfirst, hmem]
  · rcases eq_or_ne x (first hashtext moves i) with rfl | hx
    · obtain rfl : j = i := by simpa [MoveLocks.setCall] using hj
      simp [MoveLocks.setCall]
    · have hold : j ∈ s.sessions x := by simpa [MoveLocks.setCall, hx] using hj
      obtain ⟨hcallj, hfirst⟩ := h.sessions x j hold
      have hji : j ≠ i := fun he => hx (by rw [← hfirst, he])
      simp [MoveLocks.setCall, hji, hcallj, hfirst]
  · simp [MoveLocks.setCall]
  · rcases eq_or_ne x (first hashtext moves i) with rfl | hx
    · simp [hfree]
    · simp [MoveLocks.setCall, hx]
  · rcases eq_or_ne x (first hashtext moves i) with rfl | hx
    · exact Or.inl (by simpa [MoveLocks.setCall] using hj)
    · exact Or.inr (by simpa [MoveLocks.setCall, hx] using hj)

theorem exists_halfway (hashtext : Key → LockID) (is : List ι)
    (hne : ∀ i ∈ is, (moves i).1 ≠ (moves i).2) :
    ∃ as t, exec (step hashtext moves) initial as = some t ∧ Halfway hashtext moves t ∧
      (∀ i ∈ is, t.sessions (first hashtext moves i) ≠ []) ∧ ∀ x, ∀ i ∈ t.sessions x, i ∈ is := by
  induction is with
  | nil => exact ⟨[], initial, rfl, halfway_initial, by simp, fun x i hi => by cases hi⟩
  | cons i is ih =>
    obtain ⟨as, t, hexec, hhalf, hheld, hmem⟩ := ih fun j hj => hne j (List.mem_cons_of_mem _ hj)
    rcases eq_or_ne (t.sessions (first hashtext moves i)) [] with hfree | htaken
    · obtain ⟨t', hexec', hhalf', hi, hsub, hnew⟩ := hhalf.take (hne i List.mem_cons_self) hfree
      refine ⟨as ++ [.step i, .step i], t', ?_, hhalf', fun j hj => ?_, fun x j hj => ?_⟩
      · rw [exec_append, hexec]
        exact hexec'
      · rcases List.mem_cons.mp hj with rfl | hj
        · exact List.ne_nil_of_mem hi
        · obtain ⟨l, hl⟩ := List.exists_mem_of_ne_nil _ (hheld j hj)
          exact List.ne_nil_of_mem (hsub _ hl)
      · rcases hnew x j hj with rfl | hold
        · exact List.mem_cons_self
        · exact List.mem_cons_of_mem _ (hmem x j hold)
    · refine ⟨as, t, hexec, hhalf, fun j hj => ?_, fun x j hj => List.mem_cons_of_mem _ (hmem x j hj)⟩
      rcases List.mem_cons.mp hj with rfl | hj
      · exact htaken
      · exact hheld j hj

omit [DecidableEq ι] in
theorem Halfway.waits (h : Halfway hashtext moves s) {i j : ι} {x : LockID} (hi : i ∈ s.sessions x)
    (hj : j ∈ s.sessions (second hashtext moves i))
    (hne : first hashtext moves i ≠ second hashtext moves i) :
    (s.parties hashtext).WaitsFor i j := by
  obtain ⟨hcall, -⟩ := h.sessions x i hi
  obtain ⟨-, hfirst⟩ := h.sessions _ j hj
  refine ⟨?_, second hashtext moves i, ?_, hj⟩
  · rintro rfl
    exact hne hfirst
  · simp [parties, hcall, holding, second]

theorem exists_deadlock {x : LockID} (hx : TransGen (TakenBefore hashtext moves) x x) :
    ∃ as t, exec (step hashtext moves) initial as = some t ∧ (t.parties hashtext).Deadlocked := by
  obtain ⟨is, ⟨k, hk, hkx⟩, his⟩ := LockOrder.exists_edges hx
  have hne : ∀ i ∈ is, (moves i).1 ≠ (moves i).2 := by
    intro i hi he
    refine (his i hi).1 ?_
    rw [first, second, he, min_self, max_self]
  obtain ⟨as, t, hexec, hhalf, hheld, hmem⟩ := exists_halfway hashtext is hne
  refine ⟨as, t, hexec, ?_⟩
  have hfin : {i | ∃ y, i ∈ t.sessions y}.Finite :=
    is.finite_toSet.subset fun i hi => hi.elim fun y hy => hmem y i hy
  refine LockOrder.exists_cycle hfin ?_ fun i hi => ?_
  · obtain ⟨j, hj⟩ := List.exists_mem_of_ne_nil _ (hheld k hk)
    exact ⟨j, _, hj⟩
  · obtain ⟨y, hy⟩ := hi
    obtain ⟨hedge, hnext⟩ := his i (hmem y i hy)
    have hsecond : t.sessions (second hashtext moves i) ≠ [] := by
      rcases hnext with hend | ⟨j, hj, hji⟩
      · rw [hend, ← hkx]
        exact hheld k hk
      · rw [← hji]
        exact hheld j hj
    obtain ⟨j, hj⟩ := List.exists_mem_of_ne_nil _ hsecond
    exact ⟨j, ⟨_, hj⟩, hhalf.waits hy hj hedge⟩

end Crossing

section Runs

theorem never_deadlocked_iff (hashtext : Key → LockID) (moves : ι → Key × Key) :
    (∀ as, EveryState (step hashtext moves) (fun s => ¬(s.parties hashtext).Deadlocked) initial as) ↔
      ∀ x, ¬TransGen (TakenBefore hashtext moves) x x := by
  constructor
  · intro h x hx
    obtain ⟨as, t, hexec, hdead⟩ := exists_deadlock hx
    exact (h as).last hexec hdead
  · intro hacyclic as
    refine (everyState_of_preserves inv_preserved as inv_initial
      (everyStep_of_forall (fun _ _ => trivial) as)).mono fun s hs => ?_
    exact LockOrder.Parties.not_deadlocked hs.exclusive_parties hs.ordered_parties hacyclic

def crossedHash (k : Key) : LockID := if k = ascii "A" ∨ k = ascii "D" then 1 else 2

def crossedMoves : Fin 2 → Key × Key
  | 0 => (ascii "A", ascii "B")
  | 1 => (ascii "C", ascii "D")

theorem crossed_hashes_deadlock : ¬EveryState (step crossedHash crossedMoves)
    (fun s => ¬(s.parties crossedHash).Deadlocked) initial [.step 0, .step 1, .step 0, .step 1] := by
  intro h
  have hrun : (exec (step crossedHash crossedMoves) initial
      [.step 0, .step 1, .step 0, .step 1]).map
      (fun t => (t.sessions 1, t.sessions 2, t.calls 0, t.calls 1)) =
      some ([0], [1], .locking [ascii "B"] [ascii "A"], .locking [ascii "D"] [ascii "C"]) := by
    decide
  obtain ⟨t, hexec, ht⟩ := Option.map_eq_some_iff.mp hrun
  obtain ⟨h1, h2, h3, h4⟩ : t.sessions 1 = [0] ∧ t.sessions 2 = [1] ∧
      t.calls 0 = .locking [ascii "B"] [ascii "A"] ∧
      t.calls 1 = .locking [ascii "D"] [ascii "C"] := by simpa using ht
  have h01 : (t.parties crossedHash).WaitsFor 0 1 := by
    refine ⟨by decide, 2, ?_, show (1 : Fin 2) ∈ t.sessions 2 from h2 ▸ List.mem_singleton_self 1⟩
    rw [parties]
    dsimp only
    rw [h3]
    decide
  have h10 : (t.parties crossedHash).WaitsFor 1 0 := by
    refine ⟨by decide, 1, ?_, show (0 : Fin 2) ∈ t.sessions 1 from h1 ▸ List.mem_singleton_self 0⟩
    rw [parties]
    dsimp only
    rw [h4]
    decide
  exact h.last hexec ⟨0, .tail (.single h01) h10⟩

end Runs

end MoveLocks

end FileIndexer
