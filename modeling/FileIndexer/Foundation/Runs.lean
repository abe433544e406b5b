import Mathlib.Logic.Basic

namespace Except

theorem ok_bind {ε α β : Type} (a : α) (f : α → Except ε β) : (Except.ok a >>= f) = f a := rfl

theorem bind_eq_ok {ε α β : Type} {r : Except ε α} {f : α → Except ε β} {b : β} :
    (r >>= f) = .ok b ↔ ∃ a, r = .ok a ∧ f a = .ok b := by
  cases r with
  | error e =>
    constructor
    · intro h
      cases h
    · rintro ⟨a, ha, -⟩
      cases ha
  | ok a => simp [ok_bind]

end Except

namespace Transition

variable {σ α : Type*} {step : σ → α → Option σ} {ok : σ → α → Prop} {I P : σ → Prop}

def exec (step : σ → α → Option σ) : σ → List α → Option σ
  | s, [] => some s
  | s, a :: as => (step s a).bind (exec step · as)

def EveryState (step : σ → α → Option σ) (P : σ → Prop) : σ → List α → Prop
  | s, [] => P s
  | s, a :: as => P s ∧ ∀ t, step s a = some t → EveryState step P t as

def EveryStep (step : σ → α → Option σ) (ok : σ → α → Prop) : σ → List α → Prop
  | _, [] => True
  | s, a :: as => ∀ t, step s a = some t → ok s a ∧ EveryStep step ok t as

section Decide

instance EveryState.decidable [DecidablePred P] :
    (s : σ) → (as : List α) → Decidable (EveryState step P s as)
  | s, [] => inferInstanceAs (Decidable (P s))
  | s, a :: as =>
    match h : step s a with
    | none => decidable_of_iff (P s) (by simp [EveryState, h])
    | some t =>
      have := EveryState.decidable t as
      decidable_of_iff (P s ∧ EveryState step P t as) (by simp [EveryState, h])

instance EveryStep.decidable [∀ s a, Decidable (ok s a)] :
    (s : σ) → (as : List α) → Decidable (EveryStep step ok s as)
  | _, [] => isTrue trivial
  | s, a :: as =>
    match h : step s a with
    | none => isTrue (by simp [EveryStep, h])
    | some t =>
      have := EveryStep.decidable t as
      decidable_of_iff (ok s a ∧ EveryStep step ok t as) (by simp [EveryStep, h])

end Decide

theorem EveryState.head {s : σ} {as : List α} (h : EveryState step P s as) : P s := by
  cases as with
  | nil => exact h
  | cons a as => exact h.1

theorem EveryState.last {s t : σ} {as : List α} (h : EveryState step P s as)
    (he : exec step s as = some t) : P t := by
  induction as generalizing s with
  | nil =>
    simp only [exec, Option.some.injEq] at he
    exact he ▸ h
  | cons a as ih =>
    obtain ⟨u, hu, hut⟩ := Option.bind_eq_some_iff.mp he
    exact ih (h.2 u hu) hut

theorem EveryState.mono {Q : σ → Prop} (hPQ : ∀ s, P s → Q s) {s : σ} {as : List α}
    (h : EveryState step P s as) : EveryState step Q s as := by
  induction as generalizing s with
  | nil => exact hPQ s h
  | cons a as ih => exact ⟨hPQ s h.1, fun t ht => ih (h.2 t ht)⟩

theorem everyStep_of_forall (hok : ∀ s a, ok s a) {s : σ} (as : List α) : EveryStep step ok s as := by
  induction as generalizing s with
  | nil => trivial
  | cons a as ih => exact fun t _ => ⟨hok s a, ih⟩

theorem EveryStep.and {ok' : σ → α → Prop} {s : σ} {as : List α} (h : EveryStep step ok s as)
    (h' : EveryStep step ok' s as) : EveryStep step (fun s a => ok s a ∧ ok' s a) s as := by
  induction as generalizing s with
  | nil => trivial
  | cons a as ih =>
    intro t ht
    exact ⟨⟨(h t ht).1, (h' t ht).1⟩, ih (h t ht).2 (h' t ht).2⟩

def Preserves (step : σ → α → Option σ) (ok : σ → α → Prop) (I : σ → Prop) : Prop :=
  ∀ s a t, I s → ok s a → step s a = some t → I t

theorem everyState_of_preserves (hI : Preserves step ok I) {s : σ} (as : List α) (hs : I s)
    (hok : EveryStep step ok s as) : EveryState step I s as := by
  induction as generalizing s with
  | nil => exact hs
  | cons a as ih =>
    refine ⟨hs, fun t ht => ?_⟩
    obtain ⟨ha, has⟩ := hok t ht
    exact ih (hI s a t hs ha ht) has

theorem everyStep_of_preserves {ok' : σ → α → Prop} (hI : Preserves step ok I)
    (h : ∀ s a t, I s → ok s a → step s a = some t → ok' s a) {s : σ} (as : List α) (hs : I s)
    (hok : EveryStep step ok s as) : EveryStep step ok' s as := by
  induction as generalizing s with
  | nil => trivial
  | cons a as ih =>
    intro t ht
    obtain ⟨ha, has⟩ := hok t ht
    exact ⟨h s a t hs ha ht, ih (hI s a t hs ha ht) has⟩

theorem everyStep_of_everyState (hP : ∀ s a t, I s → P t → step s a = some t → ok s a)
    (hI : Preserves step ok I) {s : σ} (as : List α) (hs : I s)
    (h : EveryState step P s as) : EveryStep step ok s as := by
  induction as generalizing s with
  | nil => trivial
  | cons a as ih =>
    intro t ht
    have ha : ok s a := hP s a t hs (h.2 t ht).head ht
    exact ⟨ha, ih (hI s a t hs ha ht) (h.2 t ht)⟩

theorem everyState_iff_everyStep (hI : Preserves step ok I) (hIP : ∀ s, I s → P s)
    (hP : ∀ s a t, I s → P t → step s a = some t → ok s a) {s : σ} (as : List α) (hs : I s) :
    EveryState step P s as ↔ EveryStep step ok s as :=
  ⟨everyStep_of_everyState hP hI as hs,
    fun h => (everyState_of_preserves hI as hs h).mono hIP⟩

theorem Preserves.and {J : σ → Prop} (hI : Preserves step (fun _ _ => True) I)
    (hJ : ∀ s a t, I s → J s → ok s a → step s a = some t → J t) :
    Preserves step ok fun s => I s ∧ J s := by
  intro s a t hs ha ht
  exact ⟨hI s a t hs.1 trivial ht, hJ s a t hs.1 hs.2 ha ht⟩

theorem EveryStep.mono {ok' : σ → α → Prop} (h : ∀ s a, ok s a → ok' s a) {s : σ} {as : List α}
    (hs : EveryStep step ok s as) : EveryStep step ok' s as := by
  induction as generalizing s with
  | nil => trivial
  | cons a as ih => exact fun t ht => ⟨h s a (hs t ht).1, ih (hs t ht).2⟩

theorem exec_append (s : σ) (as bs : List α) :
    exec step s (as ++ bs) = (exec step s as).bind (exec step · bs) := by
  induction as generalizing s with
  | nil => rfl
  | cons a as ih =>
    simp only [List.cons_append, exec, Option.bind_assoc]
    exact congrArg _ (funext fun t => ih t)

theorem Preserves.exec (hI : Preserves step (fun _ _ => True) I) {s t : σ} {as : List α} (hs : I s)
    (he : exec step s as = some t) : I t :=
  (everyState_of_preserves hI as hs (everyStep_of_forall (fun _ _ => trivial) as)).last he

theorem EveryStep.exec {s t : σ} {as bs : List α} (h : EveryStep step ok s (as ++ bs))
    (he : exec step s as = some t) : EveryStep step ok t bs := by
  induction as generalizing s with
  | nil =>
    simp only [Transition.exec, Option.some.injEq] at he
    exact he ▸ h
  | cons a as ih =>
    obtain ⟨u, hu, hut⟩ := Option.bind_eq_some_iff.mp he
    exact ih (h u hu).2 hut

theorem EveryStep.append {s : σ} {as bs : List α} (h : EveryStep step ok s as)
    (hbs : ∀ t, Transition.exec step s as = some t → EveryStep step ok t bs) :
    EveryStep step ok s (as ++ bs) := by
  induction as generalizing s with
  | nil => exact hbs s rfl
  | cons a as ih =>
    intro t ht
    refine ⟨(h t ht).1, ih (h t ht).2 fun u hu => hbs u ?_⟩
    simp only [Transition.exec, ht, Option.bind_some, hu]

inductive Reaches (step : σ → α → Option σ) (ok : σ → α → Prop) (s : σ) : σ → Prop
  | refl : Reaches step ok s s
  | tail {t u : σ} {a : α} : Reaches step ok s t → ok t a → step t a = some u → Reaches step ok s u

theorem Reaches.exists_run {s t : σ} (h : Reaches step ok s t) :
    ∃ as, Transition.exec step s as = some t ∧ EveryStep step ok s as := by
  induction h with
  | refl => exact ⟨[], rfl, trivial⟩
  | @tail t u a _ hok hstep ih =>
    obtain ⟨as, hexec, hsteps⟩ := ih
    refine ⟨as ++ [a], ?_, hsteps.append fun v hv => ?_⟩
    · rw [exec_append, hexec]
      simp only [Option.bind_some, Transition.exec, hstep]
    · obtain rfl := Option.some.inj (hexec.symm.trans hv)
      exact fun w _ => ⟨hok, trivial⟩

theorem good_or_bad {G B : σ → Prop} (hG : Preserves step ok G)
    (hbad : ∀ s a t, G s → ¬ok s a → step s a = some t → B t)
    (hB : Preserves step (fun _ _ => True) B) {s t : σ} {as : List α} (hs : G s)
    (he : exec step s as = some t) :
    (EveryStep step ok s as ∧ G t) ∨ (¬EveryStep step ok s as ∧ B t) := by
  induction as generalizing s with
  | nil =>
    simp only [exec, Option.some.injEq] at he
    exact Or.inl ⟨trivial, he ▸ hs⟩
  | cons a as ih =>
    obtain ⟨u, hu, hut⟩ := Option.bind_eq_some_iff.mp he
    cases Classical.em (ok s a) with
    | inl hok =>
      refine (ih (hG s a u hs hok hu) hut).imp ?_ ?_
      · rintro ⟨has, ht⟩
        exact ⟨fun v hv => ⟨hok, Option.some.inj (hu.symm.trans hv) ▸ has⟩, ht⟩
      · rintro ⟨has, ht⟩
        exact ⟨fun h => has (h u hu).2, ht⟩
    | inr hok =>
      exact Or.inr ⟨fun h => hok (h u hu).1, hB.exec (hbad s a u hs hok hu) hut⟩

theorem everyStep_iff {ok' : σ → α → Prop} (hI : Preserves step (fun _ _ => True) I)
    (h : ∀ s a t, I s → step s a = some t → (ok s a ↔ ok' s a)) {s : σ} (as : List α) (hs : I s) :
    EveryStep step ok s as ↔ EveryStep step ok' s as := by
  induction as generalizing s with
  | nil => exact Iff.rfl
  | cons a as ih =>
    refine forall_congr' fun t => forall_congr' fun ht => ?_
    exact and_congr (h s a t hs ht) (ih (hI s a t hs trivial ht))

section History

variable {γ : Type*} {record : σ → α → γ → γ}

-- history variables: what a run has done so far, kept beside the state and never read by a step
def recorded (step : σ → α → Option σ) (record : σ → α → γ → γ) (s : σ × γ) (a : α) :
    Option (σ × γ) :=
  (step s.1 a).map (·, record s.1 a s.2)

theorem recorded_eq_some_iff {s t : σ × γ} {a : α} :
    recorded step record s a = some t ↔ step s.1 a = some t.1 ∧ t.2 = record s.1 a s.2 := by
  obtain ⟨t, h⟩ := t
  simp only [recorded, Option.map_eq_some_iff, Prod.mk.injEq]
  constructor
  · rintro ⟨u, hu, rfl, rfl⟩
    exact ⟨hu, rfl⟩
  · rintro ⟨hu, rfl⟩
    exact ⟨t, hu, rfl, rfl⟩

theorem Preserves.recorded (hI : Preserves step (fun _ _ => True) I) :
    Preserves (recorded step record) (fun _ _ => True) fun s => I s.1 :=
  fun s a _ hs _ ht => hI s.1 a _ hs trivial (recorded_eq_some_iff.mp ht).1

end History

end Transition
