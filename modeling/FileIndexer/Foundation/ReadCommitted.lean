import Mathlib.Logic.Function.Basic
import Mathlib.Data.List.Basic

namespace ReadCommitted

-- a row written by an open transaction keeps that writer until it commits or rolls back
structure Table (κ ν ι : Type*) where
  domain : List κ
  committed : κ → Option ν
  pending : κ → Option (ι × Option ν)
  closed : ∀ k ∉ domain, committed k = none ∧ pending k = none

variable {κ ν ι : Type*}

namespace Table

def ofRows [DecidableEq κ] (rows : List (κ × ν)) : Table κ ν ι where
  domain := rows.map Prod.fst
  committed k := (rows.find? fun r => r.1 = k).map Prod.snd
  pending _ := none
  closed := by
    intro k hk
    have hnone : rows.find? (fun r => r.1 = k) = none := by
      rw [List.find?_eq_none]
      rintro r hr he
      exact hk (List.mem_map.mpr ⟨r, hr, of_decide_eq_true he⟩)
    simp [hnone]

section Statements

variable [DecidableEq ι] (t : Table κ ν ι) (i : ι)

def view (k : κ) : Option ν :=
  match t.pending k with
  | none => t.committed k
  | some (j, w) => if j = i then w else t.committed k

def writable (k : κ) : Bool := (t.pending k).all fun p => p.1 = i

def rows : List ν := t.domain.filterMap (t.view i)

theorem view_of_not_mem {k : κ} (h : k ∉ t.domain) : t.view i k = none := by
  simp [view, t.closed k h]

def commit : Table κ ν ι where
  domain := t.domain
  committed := t.view i
  pending k := (t.pending k).filter fun p => p.1 ≠ i
  closed k hk := ⟨t.view_of_not_mem i hk, by simp [t.closed k hk]⟩

def rollback : Table κ ν ι where
  domain := t.domain
  committed := t.committed
  pending k := (t.pending k).filter fun p => p.1 ≠ i
  closed k hk := ⟨(t.closed k hk).1, by simp [t.closed k hk]⟩

def tryWrite [DecidableEq κ] (k : κ) (w : Option ν) : Option (Table κ ν ι) :=
  if t.writable i k then some
    { domain := k :: t.domain.filter (· ≠ k)
      committed := t.committed
      pending := Function.update t.pending k (some (i, w))
      closed := by
        intro l hl
        simp only [List.mem_cons, List.mem_filter, decide_eq_true_eq, not_or, not_and, not_not] at hl
        have hdom : l ∉ t.domain := fun hmem => hl.1 (hl.2 hmem)
        rw [Function.update_of_ne hl.1]
        exact t.closed l hdom }
  else none

end Statements

structure WrittenBy (i : ι) (P : ν → Prop) (t t' : Table κ ν ι) : Prop where
  committed : t'.committed = t.committed
  others : ∀ k j w, j ≠ i → (t'.pending k = some (j, w) ↔ t.pending k = some (j, w))
  own : ∀ k r, t'.pending k = some (i, some r) → t.pending k = some (i, some r) ∨ P r

section Trans

variable {t t' : Table κ ν ι} {i : ι}

theorem WrittenBy.refl (i : ι) (P : ν → Prop) (t : Table κ ν ι) : WrittenBy i P t t :=
  ⟨rfl, fun _ _ _ _ => Iff.rfl, fun _ _ h => Or.inl h⟩

theorem WrittenBy.trans {P : ν → Prop} {t'' : Table κ ν ι} (h : WrittenBy i P t t')
    (h' : WrittenBy i P t' t'') : WrittenBy i P t t'' where
  committed := h'.committed.trans h.committed
  others k j w hj := (h'.others k j w hj).trans (h.others k j w hj)
  own k r hr := (h'.own k r hr).elim (h.own k r) Or.inr

theorem writtenBy_foldlM {σ β : Type*} {P : ν → Prop} (get : σ → Table κ ν ι)
    {f : σ → β → Option σ} {s s' : σ} (xs : List β)
    (hf : ∀ x ∈ xs, ∀ s s', f s x = some s' → WrittenBy i P (get s) (get s'))
    (h : xs.foldlM f s = some s') : WrittenBy i P (get s) (get s') := by
  induction xs generalizing s with
  | nil =>
    obtain rfl := Option.some.inj h
    exact .refl i P _
  | cons x xs ih =>
    obtain ⟨u, hu, hrest⟩ := Option.bind_eq_some_iff.mp h
    exact (hf x (by simp) s u hu).trans (ih (fun y hy => hf y (by simp [hy])) hrest)

end Trans

section Lemmas

variable [DecidableEq ι] {t t' : Table κ ν ι} {i j : ι} {k l : κ} {v w : Option ν}

theorem view_of_pending (h : t.pending k = some (i, w)) : t.view i k = w := by
  simp [view, h]

theorem view_of_not_pending (h : ∀ w, t.pending k ≠ some (i, w)) : t.view i k = t.committed k := by
  unfold view
  cases hp : t.pending k with
  | none => rfl
  | some p =>
    have hi : p.1 ≠ i := fun he => h p.2 (by rw [hp, ← he])
    simp [hi]

theorem view_cases (t : Table κ ν ι) (i : ι) (k : κ) :
    t.view i k = t.committed k ∨ t.pending k = some (i, t.view i k) := by
  by_cases h : ∃ w, t.pending k = some (i, w)
  · obtain ⟨w, hw⟩ := h
    exact Or.inr (by rw [view_of_pending hw, hw])
  · exact Or.inl (view_of_not_pending (not_exists.mp h))

theorem writable_iff : t.writable i k = true ↔ ∀ j w, t.pending k = some (j, w) → j = i := by
  unfold writable
  cases t.pending k with
  | none => simp
  | some p =>
    obtain ⟨j, w⟩ := p
    simp

theorem mem_rows {f : ν} (h : t.view i k = some f) : f ∈ t.rows i := by
  refine List.mem_filterMap.mpr ⟨k, ?_, h⟩
  by_contra hk
  rw [t.view_of_not_mem i hk] at h
  cases h

theorem view_eq_of_writable (hi : t.writable i k = true) (hj : t.writable j k = true) (hij : j ≠ i) :
    t.view j k = t.view i k := by
  have hnone (x : ι) (v : Option ν) (hp : t.pending k = some (x, v)) : False :=
    hij ((writable_iff.mp hj x v hp).symm.trans (writable_iff.mp hi x v hp))
  rw [view_of_not_pending fun v hv => hnone j v hv, view_of_not_pending fun v hv => hnone i v hv]

section Finish

theorem pending_commit_iff : (t.commit i).pending k = some (j, w) ↔
    t.pending k = some (j, w) ∧ j ≠ i := by
  simp [commit, Option.filter_eq_some_iff]

theorem pending_rollback_iff : (t.rollback i).pending k = some (j, w) ↔
    t.pending k = some (j, w) ∧ j ≠ i := by
  simp [rollback, Option.filter_eq_some_iff]

theorem writable_commit (h : t.writable j k = true) : (t.commit i).writable j k = true :=
  writable_iff.mpr fun x w hp => writable_iff.mp h x w (pending_commit_iff.mp hp).1

theorem writable_rollback (h : t.writable j k = true) : (t.rollback i).writable j k = true :=
  writable_iff.mpr fun x w hp => writable_iff.mp h x w (pending_rollback_iff.mp hp).1

theorem view_rollback (hj : j ≠ i) : (t.rollback i).view j k = t.view j k := by
  by_cases h : ∃ w, t.pending k = some (j, w)
  · obtain ⟨w, hw⟩ := h
    rw [view_of_pending hw, view_of_pending (pending_rollback_iff.mpr ⟨hw, hj⟩)]
  · have hnot := not_exists.mp h
    rw [view_of_not_pending hnot,
      view_of_not_pending fun w hw => hnot w (pending_rollback_iff.mp hw).1]
    rfl

theorem view_commit_cases (hj : j ≠ i) : (t.commit i).view j k = t.view j k ∨
    t.pending k = some (i, (t.commit i).view j k) := by
  by_cases h : ∃ w, t.pending k = some (j, w)
  · obtain ⟨w, hw⟩ := h
    rw [view_of_pending hw, view_of_pending (pending_commit_iff.mpr ⟨hw, hj⟩)]
    exact Or.inl rfl
  · have hnot := not_exists.mp h
    have hview : (t.commit i).view j k = t.view i k :=
      view_of_not_pending fun w hw => hnot w (pending_commit_iff.mp hw).1
    rw [hview, view_of_not_pending hnot]
    exact view_cases t i k

theorem view_commit_of_writable (hj : j ≠ i) (h : t.writable j k = true) :
    (t.commit i).view j k = t.view j k :=
  (view_commit_cases hj).resolve_right fun hp => hj (writable_iff.mp h _ _ hp).symm

theorem view_commit_of_unwritten (hj : j ≠ i) (h : ∀ w, t.pending k ≠ some (i, w)) :
    (t.commit i).view j k = t.view j k :=
  (view_commit_cases hj).resolve_right (h _)

theorem view_commit_of_not_pending (h : ∀ w, t.pending k ≠ some (j, w)) :
    (t.commit i).view j k = t.view i k :=
  view_of_not_pending fun w hw => h w (pending_commit_iff.mp hw).1

theorem view_commit_of_pending (hj : j ≠ i) (h : t.pending k = some (j, w)) :
    (t.commit i).view j k = w :=
  view_of_pending (pending_commit_iff.mpr ⟨h, hj⟩)

end Finish

section Write

variable [DecidableEq κ]

theorem tryWrite_some (h : t.tryWrite i k w = some t') :
    t.writable i k = true ∧ t'.committed = t.committed ∧
      t'.pending = Function.update t.pending k (some (i, w)) := by
  unfold tryWrite at h
  split at h
  · rename_i hw
    cases h
    exact ⟨hw, rfl, rfl⟩
  · cases h

theorem view_tryWrite (h : t.tryWrite i k w = some t') : t'.view i k = w := by
  obtain ⟨-, -, hp⟩ := tryWrite_some h
  exact view_of_pending (by rw [hp, Function.update_self])

theorem view_tryWrite_of_ne (h : t.tryWrite i k w = some t') (hl : l ≠ k) :
    t'.view j l = t.view j l := by
  obtain ⟨-, hc, hp⟩ := tryWrite_some h
  simp only [view, hc, hp, Function.update_of_ne hl]

theorem writable_tryWrite (h : t.tryWrite i k w = some t') : t'.writable i k = true := by
  obtain ⟨-, -, hp⟩ := tryWrite_some h
  simp [writable, hp]

theorem writable_tryWrite_of_ne (h : t.tryWrite i k w = some t') (hl : l ≠ k) :
    t'.writable j l = t.writable j l := by
  obtain ⟨-, -, hp⟩ := tryWrite_some h
  simp only [writable, hp, Function.update_of_ne hl]

theorem pending_tryWrite_cases (h : t.tryWrite i k w = some t') (hp : t'.pending l = some (j, v)) :
    (l = k ∧ j = i ∧ v = w) ∨ (l ≠ k ∧ t.pending l = some (j, v)) := by
  obtain ⟨-, -, he⟩ := tryWrite_some h
  by_cases hl : l = k
  · subst hl
    rw [he, Function.update_self, Option.some.injEq, Prod.mk.injEq] at hp
    exact Or.inl ⟨rfl, hp.1.symm, hp.2.symm⟩
  · rw [he, Function.update_of_ne hl] at hp
    exact Or.inr ⟨hl, hp⟩

end Write

theorem WrittenBy.view {P : ν → Prop} (h : WrittenBy i P t t') (hj : j ≠ i) (k : κ) :
    t'.view j k = t.view j k := by
  by_cases hp : ∃ w, t.pending k = some (j, w)
  · obtain ⟨w, hw⟩ := hp
    rw [view_of_pending hw, view_of_pending ((h.others k j w hj).mpr hw)]
  · have hnot := not_exists.mp hp
    rw [view_of_not_pending hnot,
      view_of_not_pending fun w hw => hnot w ((h.others k j w hj).mp hw), h.committed]

theorem writtenBy_tryWrite [DecidableEq κ] {P : ν → Prop} (h : t.tryWrite i k w = some t')
    (hP : ∀ r ∈ w, P r) : WrittenBy i P t t' := by
  obtain ⟨hw, hc, hp⟩ := tryWrite_some h
  refine ⟨hc, fun l j v hj => ?_, fun l r hr => ?_⟩
  · by_cases hl : l = k
    · subst hl
      rw [hp, Function.update_self]
      constructor
      · intro he
        exact absurd (Prod.mk.inj (Option.some.inj he)).1.symm hj
      · intro hv
        exact absurd (writable_iff.mp hw j v hv) hj
    · rw [hp, Function.update_of_ne hl]
  · by_cases hl : l = k
    · subst hl
      rw [hp, Function.update_self] at hr
      exact Or.inr (hP r (Prod.mk.inj (Option.some.inj hr)).2)
    · rw [hp, Function.update_of_ne hl] at hr
      exact Or.inl hr

end Lemmas

end Table

end ReadCommitted
