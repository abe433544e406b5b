import Mathlib.Data.List.Infix

namespace Like

inductive Token (α : Type*) where
  | lit (a : α)
  | one
  | many

structure Symbols (α : Type*) where
  esc : α
  many : α
  one : α
  many_ne_esc : many ≠ esc

variable {α : Type*} [DecidableEq α] (x : Symbols α)

def tokens : List α → Option (List (Token α))
  | [] => some []
  | [c] =>
    if c = x.esc then none
    else if c = x.many then some [.many]
    else if c = x.one then some [.one]
    else some [.lit c]
  | c :: d :: p =>
    if c = x.esc then (tokens p).map (.lit d :: ·)
    else if c = x.many then (tokens (d :: p)).map (.many :: ·)
    else if c = x.one then (tokens (d :: p)).map (.one :: ·)
    else (tokens (d :: p)).map (.lit c :: ·)

def accepts : List (Token α) → List α → Bool
  | [], k => k.isEmpty
  | .lit _ :: _, [] => false
  | .lit a :: ts, c :: k => a = c && accepts ts k
  | .one :: _, [] => false
  | .one :: ts, _ :: k => accepts ts k
  | .many :: ts, k => k.tails.any (accepts ts)

def like (p k : List α) : Option Bool := (tokens x p).map (accepts · k)

def escape (s : List α) : List α :=
  s.flatMap fun c => if c = x.esc ∨ c = x.many ∨ c = x.one then [x.esc, c] else [c]

theorem tokens_esc_cons (c : α) (p : List α) :
    tokens x (x.esc :: c :: p) = (tokens x p).map (.lit c :: ·) := by
  simp [tokens]

theorem tokens_lit_cons {c : α} (hc : ¬(c = x.esc ∨ c = x.many ∨ c = x.one)) (p : List α) :
    tokens x (c :: p) = (tokens x p).map (.lit c :: ·) := by
  simp only [not_or] at hc
  cases p with
  | nil => simp [tokens, hc]
  | cons d p => simp [tokens, hc]

theorem tokens_escape_append (s p : List α) :
    tokens x (escape x s ++ p) = (tokens x p).map (s.map Token.lit ++ ·) := by
  induction s with
  | nil => simp [escape]
  | cons c s ih =>
    have hcons : escape x (c :: s) ++ p =
        (if c = x.esc ∨ c = x.many ∨ c = x.one then [x.esc, c] else [c]) ++ (escape x s ++ p) := by
      simp [escape]
    rw [hcons]
    split_ifs with hc
    · rw [List.cons_append, List.singleton_append, tokens_esc_cons, ih, Option.map_map]
      rfl
    · rw [List.singleton_append, tokens_lit_cons x hc, ih, Option.map_map]
      rfl

theorem tokens_many_cons (p : List α) :
    tokens x (x.many :: p) = (tokens x p).map (.many :: ·) := by
  cases p with
  | nil => simp [tokens, x.many_ne_esc]
  | cons c p => simp [tokens, x.many_ne_esc]

variable {x}

theorem accepts_lits_append {s k : List α} {ts : List (Token α)} :
    accepts (s.map Token.lit ++ ts) k = true ↔ ∃ r, k = s ++ r ∧ accepts ts r = true := by
  induction s generalizing k with
  | nil => simp
  | cons c s ih =>
    cases k with
    | nil => simp [accepts]
    | cons d k =>
      simp only [List.map_cons, List.cons_append, accepts, Bool.and_eq_true, decide_eq_true_eq, ih,
        List.cons.injEq]
      constructor
      · rintro ⟨rfl, r, rfl, hr⟩
        exact ⟨r, ⟨rfl, rfl⟩, hr⟩
      · rintro ⟨r, ⟨rfl, rfl⟩, hr⟩
        exact ⟨rfl, r, rfl, hr⟩

theorem accepts_many_cons {ts : List (Token α)} {k : List α} :
    accepts (.many :: ts) k = true ↔ ∃ t, t <:+ k ∧ accepts ts t = true := by
  simp only [accepts, List.any_eq_true, List.mem_tails]

theorem accepts_many (k : List α) : accepts [Token.many] k = true :=
  accepts_many_cons.mpr ⟨[], List.nil_suffix, rfl⟩

section Patterns

variable (x)

def Decides (p k : List α) (P : Prop) : Prop := ∃ b, like x p k = some b ∧ (b = true ↔ P)

theorem decides_of_tokens (ts : List (Token α)) {p k : List α} {P : Prop}
    (hp : tokens x p = some ts) (h : accepts ts k = true ↔ P) : Decides x p k P :=
  ⟨accepts ts k, by rw [like, hp]; rfl, h⟩

variable {x} in
theorem Decides.like_eq_true_iff {p k : List α} {P : Prop} (h : Decides x p k P) :
    like x p k = some true ↔ P := by
  obtain ⟨b, hb, hP⟩ := h
  rw [hb, Option.some.injEq]
  exact hP

theorem decides_escape_many (s k : List α) : Decides x (escape x s ++ [x.many]) k (s <+: k) := by
  apply decides_of_tokens x (s.map .lit ++ [.many])
  · rw [tokens_escape_append, tokens_many_cons]
    rfl
  · rw [accepts_lits_append]
    constructor
    · rintro ⟨r, rfl, -⟩
      exact List.prefix_append s r
    · rintro ⟨r, rfl⟩
      exact ⟨r, rfl, accepts_many r⟩

theorem decides_escape (s k : List α) : Decides x (escape x s) k (k = s) := by
  apply decides_of_tokens x (s.map .lit ++ [])
  · rw [← List.append_nil (escape x s), tokens_escape_append]
    rfl
  · rw [accepts_lits_append]
    constructor
    · rintro ⟨r, rfl, hr⟩
      cases r with
      | nil => exact List.append_nil s
      | cons c r => cases hr
    · rintro rfl
      exact ⟨[], (List.append_nil k).symm, rfl⟩

theorem decides_many_escape_many (s k : List α) :
    Decides x ([x.many] ++ escape x s ++ [x.many]) k (s <:+: k) := by
  apply decides_of_tokens x (.many :: (s.map .lit ++ [.many]))
  · rw [List.append_assoc, List.singleton_append, tokens_many_cons, tokens_escape_append,
      tokens_many_cons]
    rfl
  · rw [List.infix_iff_prefix_suffix]
    simp only [accepts_many_cons, accepts_lits_append]
    constructor
    · rintro ⟨t, ht, r, rfl, -⟩
      exact ⟨_, List.prefix_append s r, ht⟩
    · rintro ⟨t, ⟨r, rfl⟩, ht⟩
      exact ⟨_, ht, r, rfl, [], List.nil_suffix, rfl⟩

theorem like_escape_many (s k : List α) :
    like x (escape x s ++ [x.many]) k = some (s.isPrefixOf k) := by
  obtain ⟨b, hb, hs⟩ := decides_escape_many x s k
  rw [hb, Option.some.injEq, Bool.eq_iff_iff, hs, List.isPrefixOf_iff_prefix]

end Patterns

end Like
