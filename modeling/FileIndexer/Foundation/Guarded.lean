import Mathlib.Logic.Function.Basic

namespace Guarded

variable {κ ι γ : Type*}

structure Heap (κ ι γ : Type*) where
  cell : κ → γ
  holder : κ → Option ι

structure Framed (me : ι) (h h' : Heap κ ι γ) : Prop where
  cells : ∀ k, h.holder k ≠ some me → h'.cell k = h.cell k
  holders : ∀ k j, j ≠ me → h.holder k = some j → h'.holder k = some j

def Owns (h : Heap κ ι γ) (i : ι) (as : List (κ × (γ → Prop))) : Prop :=
  ∀ a ∈ as, h.holder a.1 = some i ∧ a.2 (h.cell a.1)

theorem Framed.refl (me : ι) (h : Heap κ ι γ) : Framed me h h :=
  ⟨fun _ _ => rfl, fun _ _ _ hj => hj⟩

theorem Owns.stable {me i : ι} {h h' : Heap κ ι γ} {as : List (κ × (γ → Prop))}
    (ho : Owns h i as) (hi : i ≠ me) (hf : Framed me h h') : Owns h' i as := by
  intro a ha
  obtain ⟨hk, hp⟩ := ho a ha
  have hne : h.holder a.1 ≠ some me := by
    rw [hk]
    exact fun he => hi (Option.some.inj he)
  refine ⟨hf.holders _ _ hi hk, ?_⟩
  rw [hf.cells _ hne]
  exact hp

theorem Owns.nil (h : Heap κ ι γ) (i : ι) : Owns h i [] := by
  intro a ha
  cases ha

theorem Owns.cons_iff {h : Heap κ ι γ} {i : ι} {k : κ} {p : γ → Prop}
    {as : List (κ × (γ → Prop))} :
    Owns h i ((k, p) :: as) ↔ (h.holder k = some i ∧ p (h.cell k)) ∧ Owns h i as := by
  simp [Owns]

theorem Owns.append_iff {h : Heap κ ι γ} {i : ι} {as bs : List (κ × (γ → Prop))} :
    Owns h i (as ++ bs) ↔ Owns h i as ∧ Owns h i bs :=
  List.forall_mem_append

end Guarded
