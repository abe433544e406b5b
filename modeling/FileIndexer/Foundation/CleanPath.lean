import Mathlib.Data.List.TakeWhile

namespace CleanPath

structure Names (σ : Type*) where
  empty : σ
  cur : σ
  up : σ
  up_ne_empty : up ≠ empty
  up_ne_cur : up ≠ cur

variable {σ : Type*} [DecidableEq σ] (x : Names σ)

def push (rooted : Bool) (out : List σ) (s : σ) : List σ :=
  if s = x.empty ∨ s = x.cur then out
  else if s = x.up then
    match out with
    | [] => if rooted then [] else [s]
    | top :: rest => if top = x.up then s :: top :: rest else rest
  else s :: out

def reduce (rooted : Bool) (segs : List σ) : List σ := (segs.foldl (push x rooted) []).reverse

def ordinary (s : σ) : Bool := s ≠ x.empty && s ≠ x.cur && s ≠ x.up

def isClean (segs : List σ) : Bool := (segs.dropWhile fun s => s = x.up).all (ordinary x)

variable {x}

theorem ordinary_iff {s : σ} : ordinary x s = true ↔ s ≠ x.empty ∧ s ≠ x.cur ∧ s ≠ x.up := by
  simp [ordinary, and_assoc]

theorem isClean_iff {segs : List σ} : isClean x segs = true ↔ ∃ ups rest, segs = ups ++ rest ∧
    (∀ u ∈ ups, u = x.up) ∧ ∀ r ∈ rest, ordinary x r = true := by
  constructor
  · intro h
    refine ⟨segs.takeWhile fun s => s = x.up, segs.dropWhile fun s => s = x.up,
      List.takeWhile_append_dropWhile.symm, fun u hu => ?_, List.all_eq_true.mp h⟩
    simpa using List.mem_takeWhile_imp hu
  · rintro ⟨ups, rest, rfl, hups, hrest⟩
    rw [isClean, List.dropWhile_append_of_pos (by simpa using hups), List.all_eq_true]
    exact fun r hr => hrest r ((List.dropWhile_sublist _).subset hr)

theorem push_ordinary {s : σ} (hs : ordinary x s = true) (rooted : Bool) (out : List σ) :
    push x rooted out s = s :: out := by
  obtain ⟨he, hc, hu⟩ := ordinary_iff.mp hs
  simp [push, he, hc, hu]

theorem foldl_ordinary {rest : List σ} (h : ∀ r ∈ rest, ordinary x r = true) (rooted : Bool)
    (out : List σ) : rest.foldl (push x rooted) out = rest.reverse ++ out := by
  induction rest generalizing out with
  | nil => rfl
  | cons r rest ih =>
    rw [List.foldl_cons, push_ordinary (h r (by simp)), ih fun s hs => h s (by simp [hs])]
    simp

theorem push_up {out : List σ} (h : ∀ u ∈ out, u = x.up) : push x false out x.up = x.up :: out := by
  cases out with
  | nil => simp [push, x.up_ne_empty, x.up_ne_cur]
  | cons top rest =>
    have htop : top = x.up := h top (by simp)
    simp [push, x.up_ne_empty, x.up_ne_cur, htop]

theorem foldl_ups {ups out : List σ} (hups : ∀ u ∈ ups, u = x.up) (hout : ∀ u ∈ out, u = x.up) :
    ups.foldl (push x false) out = ups.reverse ++ out := by
  induction ups generalizing out with
  | nil => rfl
  | cons u ups ih =>
    obtain rfl : u = x.up := hups u (by simp)
    have hout' : ∀ u ∈ x.up :: out, u = x.up := by simpa using hout
    rw [List.foldl_cons, push_up hout, ih (fun u hu => hups u (by simp [hu])) hout']
    simp

theorem reduce_of_isClean {segs : List σ} (h : isClean x segs = true) :
    reduce x false segs = segs := by
  obtain ⟨ups, rest, rfl, hups, hrest⟩ := isClean_iff.mp h
  rw [reduce, List.foldl_append, foldl_ups hups (by simp), foldl_ordinary hrest]
  simp

def Stacked (x : Names σ) (out : List σ) : Prop :=
  ∃ ord ups, out = ord ++ ups ∧ (∀ r ∈ ord, ordinary x r = true) ∧ ∀ u ∈ ups, u = x.up

theorem stacked_push {out : List σ} (h : Stacked x out) (s : σ) : Stacked x (push x false out s) := by
  obtain ⟨ord, ups, rfl, hord, hups⟩ := h
  by_cases hskip : s = x.empty ∨ s = x.cur
  · have hkeep : push x false (ord ++ ups) s = ord ++ ups := by simp only [push, if_pos hskip]
    rw [hkeep]
    exact ⟨ord, ups, rfl, hord, hups⟩
  · by_cases hup : s = x.up
    · subst hup
      cases ord with
      | nil =>
        rw [List.nil_append, push_up hups]
        exact ⟨[], x.up :: ups, rfl, by simp, by simpa using hups⟩
      | cons top rest =>
        have htop := (ordinary_iff.mp (hord top (by simp))).2.2
        have hpop : push x false (top :: rest ++ ups) x.up = rest ++ ups := by
          simp [push, hskip, htop]
        rw [hpop]
        exact ⟨rest, ups, rfl, fun r hr => hord r (by simp [hr]), hups⟩
    · have hs : ordinary x s = true := by
        rw [not_or] at hskip
        exact ordinary_iff.mpr ⟨hskip.1, hskip.2, hup⟩
      rw [push_ordinary hs]
      exact ⟨s :: ord, ups, rfl, by simpa [hs] using hord, hups⟩

theorem stacked_foldl (segs : List σ) {out : List σ} (h : Stacked x out) :
    Stacked x (segs.foldl (push x false) out) := by
  induction segs generalizing out with
  | nil => exact h
  | cons s segs ih => exact ih (stacked_push h s)

theorem isClean_reduce (segs : List σ) : isClean x (reduce x false segs) = true := by
  have hempty : Stacked x [] := ⟨[], [], rfl, by simp, by simp⟩
  obtain ⟨ord, ups, he, hord, hups⟩ := stacked_foldl segs hempty
  refine isClean_iff.mpr ⟨ups.reverse, ord.reverse, ?_, by simpa using hups, by simpa using hord⟩
  rw [reduce, he, List.reverse_append]

theorem reduce_eq_self_iff {segs : List σ} :
    reduce x false segs = segs ↔ isClean x segs = true := by
  refine ⟨fun h => ?_, reduce_of_isClean⟩
  rw [← h]
  exact isClean_reduce segs

theorem reduce_concat {s : σ} (hs : ordinary x s = true) (rooted : Bool) (segs : List σ) :
    reduce x rooted (segs ++ [s]) = reduce x rooted segs ++ [s] := by
  rw [reduce, List.foldl_append, List.foldl_cons, List.foldl_nil, push_ordinary hs]
  simp [reduce]

theorem reduce_concat_empty (rooted : Bool) (segs : List σ) :
    reduce x rooted (segs ++ [x.empty]) = reduce x rooted segs := by
  rw [reduce, List.foldl_append, List.foldl_cons, List.foldl_nil]
  simp [push, reduce]

theorem push_nil (rooted : Bool) (s : σ) :
    push x rooted [] s = [] ∨ push x rooted [] s = [s] := by
  simp only [push]
  split_ifs <;> simp

theorem push_cons (rooted : Bool) (top : σ) (rest : List σ) (s : σ) :
    push x rooted (top :: rest) s = top :: rest ∨ push x rooted (top :: rest) s = rest ∨
      push x rooted (top :: rest) s = s :: top :: rest := by
  simp only [push]
  split_ifs <;> simp

theorem mem_push {rooted : Bool} {out : List σ} {s r : σ} (h : r ∈ push x rooted out s) :
    r ∈ out ∨ r = s := by
  cases out with
  | nil => rcases push_nil rooted s (x := x) with he | he <;> simp_all
  | cons top rest =>
    rcases push_cons rooted top rest s (x := x) with he | he | he <;> rw [he] at h
    · exact Or.inl h
    · exact Or.inl (by simp [h])
    · exact (List.mem_cons.mp h).symm

theorem mem_reduce {rooted : Bool} {segs : List σ} {r : σ} (h : r ∈ reduce x rooted segs) :
    r ∈ segs := by
  have hfold (out : List σ) (hr : r ∈ segs.foldl (push x rooted) out) : r ∈ out ∨ r ∈ segs := by
    clear h
    induction segs generalizing out with
    | nil => exact Or.inl hr
    | cons s segs ih =>
      rcases ih _ hr with hr | hr
      · exact (mem_push hr).imp_right fun he => by simp [he]
      · exact Or.inr (by simp [hr])
  simpa using hfold [] (by simpa [reduce] using h)

theorem length_push_le (rooted : Bool) (out : List σ) (s : σ) :
    (push x rooted out s).length ≤ out.length + 1 := by
  cases out with
  | nil => rcases push_nil rooted s (x := x) with he | he <;> simp [he]
  | cons top rest =>
    rcases push_cons rooted top rest s (x := x) with he | he | he <;> rw [he]
    · exact Nat.le_succ _
    · simp only [List.length_cons]
      omega
    · exact le_rfl

theorem length_reduce_le (rooted : Bool) (segs : List σ) :
    (reduce x rooted segs).length ≤ segs.length := by
  have hfold (out : List σ) :
      (segs.foldl (push x rooted) out).length ≤ out.length + segs.length := by
    induction segs generalizing out with
    | nil => simp
    | cons s segs ih =>
      have hpush := length_push_le (x := x) rooted out s
      have hrest := ih (push x rooted out s)
      rw [List.foldl_cons, List.length_cons]
      omega
  simpa [reduce] using hfold []

end CleanPath
