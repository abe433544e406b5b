import Mathlib.Data.List.Nodup

namespace Rows

variable {ρ κ ν : Type*} {pk : ρ → κ} {rows : List ρ}

theorem nodup_map_of_inj {f : ρ → ν} (hn : (rows.map pk).Nodup)
    (hf : ∀ x ∈ rows, ∀ y ∈ rows, f x = f y → x = y) : (rows.map f).Nodup :=
  (List.nodup_map_iff_inj_on hn.of_map).mpr hf

theorem eq_of_pk (hn : (rows.map pk).Nodup) {x y : ρ} (hx : x ∈ rows) (hy : y ∈ rows)
    (h : pk x = pk y) : x = y :=
  List.inj_on_of_nodup_map hn hx hy h

theorem nodup_map_filter (hn : (rows.map pk).Nodup) (p : ρ → Bool) :
    ((rows.filter p).map pk).Nodup :=
  hn.sublist (List.filter_sublist.map pk)

theorem nodup_map_fixed (hn : (rows.map pk).Nodup) {g : ρ → ρ} (hg : ∀ r, pk (g r) = pk r) :
    ((rows.map g).map pk).Nodup := by
  have h : (rows.map g).map pk = rows.map pk := by simp [Function.comp_def, hg]
  rw [h]
  exact hn

theorem nodup_map_concat (hn : (rows.map pk).Nodup) {r : ρ} (hr : ∀ x ∈ rows, pk x ≠ pk r) :
    ((rows ++ [r]).map pk).Nodup := by
  rw [List.map_append, List.nodup_append]
  refine ⟨hn, by simp, ?_⟩
  intro a ha b hb
  obtain ⟨x, hx, rfl⟩ := List.mem_map.mp ha
  obtain rfl : b = pk r := by simpa using hb
  exact hr x hx

section Lookup

variable [DecidableEq κ]

def lookup (pk : ρ → κ) (k : κ) (rows : List ρ) : Option ρ := rows.find? fun r => pk r = k

theorem lookup_eq_some_iff (hn : (rows.map pk).Nodup) {k : κ} {r : ρ} :
    lookup pk k rows = some r ↔ r ∈ rows ∧ pk r = k := by
  constructor
  · intro h
    exact ⟨List.mem_of_find?_eq_some h, by simpa using List.find?_some h⟩
  · rintro ⟨hr, rfl⟩
    cases h : lookup pk (pk r) rows with
    | none => simp [lookup, List.find?_eq_none] at h; exact absurd rfl (h r hr)
    | some x =>
      have hx : pk x = pk r := by simpa using List.find?_some h
      rw [eq_of_pk hn (List.mem_of_find?_eq_some h) hr hx]

theorem lookup_eq_none_iff {k : κ} : lookup pk k rows = none ↔ ∀ r ∈ rows, pk r ≠ k := by
  simp [lookup, List.find?_eq_none]

end Lookup

theorem lookup_filterMap {κ β : Type*} [DecidableEq κ] (g : κ → Option β) (l : List κ) (k : κ) :
    (l.filterMap fun k => (g k).map (k, ·)).lookup k = if k ∈ l then g k else none := by
  induction l with
  | nil => rfl
  | cons a l ih =>
    rw [List.filterMap_cons]
    rcases eq_or_ne k a with rfl | hne
    · rw [if_pos List.mem_cons_self]
      cases hg : g k with
      | none => simpa [hg] using ih
      | some b => simp
    · have hmem : k ∈ a :: l ↔ k ∈ l := by simp [hne]
      rw [if_congr hmem rfl rfl, ← ih]
      cases hg : g a with
      | none => rfl
      | some b => simp [List.lookup_cons, beq_eq_false_iff_ne.mpr hne]

end Rows
