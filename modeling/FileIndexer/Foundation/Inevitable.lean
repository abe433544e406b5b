import FileIndexer.Foundation.Runs

namespace Transition

variable {σ α : Type*} {step : σ → α → Option σ} {ok : σ → α → Prop} {I P : σ → Prop}

-- every run of ok steps ends, and it ends in P
inductive Inevitable (step : σ → α → Option σ) (ok : σ → α → Prop) (P : σ → Prop) : σ → Prop
  | now {s : σ} : P s → Inevitable step ok P s
  | later {s : σ} : (∃ a t, ok s a ∧ step s a = some t) →
      (∀ a t, ok s a → step s a = some t → Inevitable step ok P t) → Inevitable step ok P s

theorem Inevitable.mono {Q : σ → Prop} (hPQ : ∀ s, P s → Q s) {s : σ}
    (h : Inevitable step ok P s) : Inevitable step ok Q s := by
  induction h with
  | now hp => exact .now (hPQ _ hp)
  | later henabled _ ih => exact .later henabled ih

theorem inevitable_of_measure (μ : σ → Nat) (hI : Preserves step ok I)
    (henabled : ∀ s, I s → ¬P s → ∃ a t, ok s a ∧ step s a = some t)
    (hless : ∀ s a t, I s → ¬P s → ok s a → step s a = some t → μ t < μ s) {s : σ} (hs : I s) :
    Inevitable step ok P s := by
  induction hn : μ s using Nat.strongRecOn generalizing s with
  | _ n ih =>
    cases Classical.em (P s) with
    | inl hp => exact .now hp
    | inr hp =>
      refine .later (henabled s hs hp) fun a t ha ht => ?_
      exact ih (μ t) (hn ▸ hless s a t hs hp ha ht) (hI s a t hs ha ht) rfl

end Transition
