import Mathlib.Data.List.DropRight
import Mathlib.Data.List.Lex
import Mathlib.Order.Cover

namespace Segments

variable {α : Type*}

theorem intercalate_append (sep : α) {l m : List (List α)} (hl : l ≠ []) (hm : m ≠ []) :
    [sep].intercalate (l ++ m) = [sep].intercalate l ++ sep :: [sep].intercalate m := by
  induction l with
  | nil => exact absurd rfl hl
  | cons x l ih =>
    cases l with
    | nil => simp [List.intercalate_cons_of_ne_nil hm]
    | cons y l =>
      rw [List.cons_append, List.intercalate_cons_of_ne_nil (by simp), ih (by simp)]
      simp

section Split

variable [DecidableEq α] {sep : α}

def heads (sep : α) (k : List α) : List (List α) :=
  (List.range' 1 ((k.splitOn sep).length - 1)).map fun i =>
    [sep].intercalate ((k.splitOn sep).take i) ++ [sep]

theorem splitOn_length_pos (sep : α) (k : List α) : 0 < (k.splitOn sep).length :=
  List.length_pos_iff.mpr (List.splitOn_ne_nil sep k)

theorem not_mem_of_mem_splitOn {k s : List α} (h : s ∈ k.splitOn sep) : sep ∉ s := by
  induction k generalizing s with
  | nil =>
    obtain rfl : s = [] := by simpa using h
    exact List.not_mem_nil
  | cons c k ih =>
    rw [List.splitOn_cons_eq_if_modifyHead] at h
    split at h
    · rcases List.mem_cons.mp h with rfl | hs
      · exact List.not_mem_nil
      · exact ih hs
    · rename_i hne
      obtain ⟨first, rest, he⟩ := List.exists_cons_of_ne_nil (List.splitOn_ne_nil sep k)
      rw [he, List.modifyHead_cons, List.mem_cons] at h
      rcases h with rfl | hs
      · have hfirst : sep ∉ first := ih (by simp [he])
        have hsep : sep ≠ c := fun heq => hne (by simp [heq])
        simp [hfirst, hsep]
      · exact ih (by simp [he, hs])

theorem head_of_split {k : List α} {i : ℕ} (hi : 0 < i) (hl : i < (k.splitOn sep).length) :
    k = [sep].intercalate ((k.splitOn sep).take i) ++
      sep :: [sep].intercalate ((k.splitOn sep).drop i) := by
  have ht : (k.splitOn sep).take i ≠ [] :=
    List.length_pos_iff.mp (by rw [List.length_take]; omega)
  have hd : (k.splitOn sep).drop i ≠ [] :=
    List.length_pos_iff.mp (by rw [List.length_drop]; omega)
  rw [← intercalate_append sep ht hd, List.take_append_drop, List.intercalate_splitOn]

theorem mem_heads_iff {d k : List α} :
    d ∈ heads sep k ↔ ∃ p s, d = p ++ [sep] ∧ k = p ++ sep :: s := by
  simp only [heads, List.mem_map, List.mem_range'_1]
  constructor
  · rintro ⟨i, ⟨hi, hl⟩, rfl⟩
    exact ⟨_, _, rfl, head_of_split hi (by omega)⟩
  · rintro ⟨p, s, rfl, rfl⟩
    have hp := splitOn_length_pos sep p
    have hs := splitOn_length_pos sep s
    refine ⟨(p.splitOn sep).length, ?_, ?_⟩
    · rw [List.splitOn_append_cons_self, List.length_append]
      omega
    · rw [List.splitOn_append_cons_self, List.take_left, List.intercalate_splitOn]

end Split

section Base

variable [DecidableEq α] {sep : α}

def base (sep : α) (k : List α) : List α := k.rdropWhile fun c => c ≠ sep

theorem base_prefix (sep : α) (k : List α) : base sep k <+: k := List.rdropWhile_prefix _ _

theorem base_eq_nil_or (sep : α) (k : List α) : base sep k = [] ∨ ∃ p, base sep k = p ++ [sep] := by
  rcases List.eq_nil_or_concat' (base sep k) with hnil | ⟨p, c, hc⟩
  · exact Or.inl hnil
  · have hlast : ∀ hne : base sep k ≠ [], (base sep k).getLast hne = sep := fun hne =>
      of_not_not fun h => List.rdropWhile_last_not (fun c => decide (c ≠ sep)) k hne
        (decide_eq_true h)
    simp only [hc, List.getLast_append_singleton] at hlast
    exact Or.inr ⟨p, hlast (by simp) ▸ hc⟩

theorem eq_base_append (sep : α) (k : List α) : ∃ name, k = base sep k ++ name ∧ sep ∉ name := by
  refine ⟨k.rtakeWhile fun c => c ≠ sep, (List.rdropWhile_append_rtakeWhile ..).symm, fun hmem => ?_⟩
  simpa using List.mem_rtakeWhile_imp hmem

theorem base_append {p name : List α} (hp : p = [] ∨ ∃ q, p = q ++ [sep]) (hname : sep ∉ name) :
    base sep (p ++ name) = p := by
  induction name using List.reverseRecOn with
  | nil =>
    rcases hp with rfl | ⟨q, rfl⟩
    · rfl
    · rw [List.append_nil, base, List.rdropWhile_concat_neg]
      simp
  | append_singleton name c ih =>
    have hc : c ≠ sep := fun he => hname (by simp [he])
    rw [← List.append_assoc, base, List.rdropWhile_concat_pos _ _ _ (by simpa using hc)]
    exact ih fun hmem => hname (List.mem_append_left _ hmem)

end Base

section Order

variable [LinearOrder α] {sep next : α}

theorem close_lt_cons_iff (h : sep ⋖ next) (c : α) (s : List α) :
    [sep] < c :: s ∧ c :: s < [next] ↔ c = sep ∧ s ≠ [] := by
  simp only [List.cons_lt_cons_iff, List.not_lt_nil, and_false, or_false]
  constructor
  · rintro ⟨hlo | ⟨rfl, hs⟩, hhi⟩
    · exact absurd hhi (h.2 hlo)
    · exact ⟨rfl, fun he => by simp [he] at hs⟩
  · rintro ⟨rfl, hs⟩
    refine ⟨Or.inr ⟨rfl, ?_⟩, h.1⟩
    cases s with
    | nil => exact absurd rfl hs
    | cons x s => exact List.nil_lt_cons x s

theorem between_iff (h : sep ⋖ next) (p k : List α) :
    p ++ [sep] < k ∧ k < p ++ [next] ↔ ∃ s, s ≠ [] ∧ k = p ++ sep :: s := by
  induction p generalizing k with
  | nil =>
    cases k with
    | nil => simp
    | cons c s =>
      simp only [List.nil_append, close_lt_cons_iff h, List.cons.injEq]
      constructor
      · rintro ⟨rfl, hs⟩
        exact ⟨s, hs, rfl, rfl⟩
      · rintro ⟨t, ht, rfl, rfl⟩
        exact ⟨rfl, ht⟩
  | cons x p ih =>
    cases k with
    | nil => simp
    | cons c s =>
      simp only [List.cons_append, List.cons_lt_cons_iff, List.cons.injEq]
      constructor
      · rintro ⟨hlo | ⟨rfl, hlo⟩, hhi | ⟨he, hhi⟩⟩
        · exact absurd hhi (lt_asymm hlo)
        · exact absurd hlo (he ▸ lt_irrefl x)
        · exact absurd hhi (lt_irrefl x)
        · obtain ⟨t, ht, rfl⟩ := (ih s).mp ⟨hlo, hhi⟩
          exact ⟨t, ht, rfl, rfl⟩
      · rintro ⟨t, ht, rfl, rfl⟩
        obtain ⟨hlo, hhi⟩ := (ih _).mpr ⟨t, ht, rfl⟩
        exact ⟨Or.inr ⟨rfl, hlo⟩, Or.inr ⟨rfl, hhi⟩⟩

end Order

end Segments
