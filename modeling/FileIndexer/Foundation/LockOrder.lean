import Mathlib.Data.Fintype.Card
import Mathlib.Data.Set.Finite.Basic
import Mathlib.Order.WellFounded

namespace LockOrder

open Relation

section Waiting

variable {ι κ : Type*}

-- holds i x: party i holds lock x; wants i: the lock it asks for next
structure Parties (ι κ : Type*) where
  holds : ι → κ → Prop
  wants : ι → Option κ

namespace Parties

variable (p : Parties ι κ)

def WaitsFor (i j : ι) : Prop := i ≠ j ∧ ∃ x ∈ p.wants i, p.holds j x

def Deadlocked : Prop := ∃ i, TransGen p.WaitsFor i i

def Exclusive : Prop := ∀ i j x, p.holds i x → p.holds j x → i = j

def Ordered (before : κ → κ → Prop) : Prop :=
  ∀ i x, p.holds i x → ∀ y ∈ p.wants i, x ≠ y → before x y

variable {p} {before : κ → κ → Prop}

theorem before_of_waits (hex : p.Exclusive) (hord : p.Ordered before) {i j k : ι}
    (h : TransGen p.WaitsFor i j) (hjk : p.WaitsFor j k) :
    ∃ x ∈ p.wants i, ∃ y ∈ p.wants j, TransGen before x y := by
  have hlink : ∀ {i j k : ι}, p.WaitsFor i j → p.WaitsFor j k →
      ∃ x ∈ p.wants i, ∃ y ∈ p.wants j, before x y := by
    rintro i j k ⟨-, x, hx, hj⟩ ⟨hne, y, hy, hk⟩
    refine ⟨x, hx, y, hy, hord j x hj y hy ?_⟩
    rintro rfl
    exact hne (hex j k x hj hk)
  induction h generalizing k with
  | single hij =>
    obtain ⟨x, hx, y, hy, hxy⟩ := hlink hij hjk
    exact ⟨x, hx, y, hy, .single hxy⟩
  | tail _ hlast ih =>
    obtain ⟨x, hx, y, hy, hxy⟩ := ih hlast
    obtain ⟨y', hy', z, hz, hyz⟩ := hlink hlast hjk
    obtain rfl : y = y' := Option.some.inj (hy.symm.trans hy')
    exact ⟨x, hx, z, hz, hxy.tail hyz⟩

theorem not_deadlocked (hex : p.Exclusive) (hord : p.Ordered before)
    (hacyclic : ∀ x, ¬TransGen before x x) : ¬p.Deadlocked := by
  rintro ⟨i, hcycle⟩
  obtain ⟨k, hik⟩ : ∃ k, p.WaitsFor i k := by
    rcases TransGen.head'_iff.mp hcycle with ⟨k, hik, -⟩
    exact ⟨k, hik⟩
  obtain ⟨x, hx, y, hy, hxy⟩ := before_of_waits hex hord hcycle hik
  obtain rfl : x = y := Option.some.inj (hx.symm.trans hy)
  exact hacyclic x hxy

end Parties

end Waiting

section Cycles

variable {α : Type*} {r : α → α → Prop}

theorem exists_cycle {s : Set α} (hfin : s.Finite) (hne : s.Nonempty)
    (h : ∀ a ∈ s, ∃ b ∈ s, r a b) : ∃ a, TransGen r a a := by
  by_contra hnone
  have hirrefl : ∀ a, ¬TransGen r a a := fun a ha => hnone ⟨a, ha⟩
  have := hfin.to_subtype
  have htrans : IsTrans s fun a b => TransGen r b.1 a.1 := ⟨fun _ _ _ hab hbc => hbc.trans hab⟩
  have hirr : Std.Irrefl fun a b : s => TransGen r b.1 a.1 := ⟨fun a => hirrefl a.1⟩
  have hwf := Finite.wellFounded_of_trans_of_irrefl fun a b : s => TransGen r b.1 a.1
  obtain ⟨a, ha⟩ := hne
  obtain ⟨m, -, hm⟩ := hwf.has_min Set.univ ⟨⟨a, ha⟩, trivial⟩
  obtain ⟨b, hb, hmb⟩ := h m.1 m.2
  exact hm ⟨b, hb⟩ trivial (.single hmb)

variable {ι : Type*} {tail head : ι → α}

theorem exists_edges {u v : α} (h : TransGen (fun u v => ∃ i, tail i = u ∧ head i = v ∧ u ≠ v) u v) :
    ∃ es : List ι, (∃ i ∈ es, tail i = u) ∧ ∀ i ∈ es, tail i ≠ head i ∧
      (head i = v ∨ ∃ j ∈ es, tail j = head i) := by
  induction h with
  | single h =>
    obtain ⟨i, hi, rfl, hne⟩ := h
    refine ⟨[i], ⟨i, List.mem_singleton_self i, hi⟩, fun j hj => ?_⟩
    obtain rfl := List.mem_singleton.mp hj
    exact ⟨hi ▸ hne, Or.inl rfl⟩
  | tail _ h ih =>
    obtain ⟨i, hi, rfl, hne⟩ := h
    obtain ⟨es, ⟨k, hk, hku⟩, hes⟩ := ih
    refine ⟨i :: es, ⟨k, List.mem_cons_of_mem _ hk, hku⟩, fun j hj => ?_⟩
    rcases List.mem_cons.mp hj with rfl | hj
    · exact ⟨hi ▸ hne, Or.inl rfl⟩
    · obtain ⟨hjne, hnext⟩ := hes j hj
      refine ⟨hjne, Or.inr ?_⟩
      rcases hnext with hend | ⟨l, hl, hlj⟩
      · exact ⟨i, List.mem_cons_self, hi.trans hend.symm⟩
      · exact ⟨l, List.mem_cons_of_mem _ hl, hlj⟩

end Cycles

end LockOrder
