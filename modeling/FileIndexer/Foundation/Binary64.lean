import Mathlib.Algebra.Order.Round
import Mathlib.Data.Int.Log
import Mathlib.Data.Rat.Floor
import Mathlib.Tactic.Linarith
import Mathlib.Tactic.Positivity
import Mathlib.Tactic.NormNum

namespace Binary64

-- to the nearest integer, a tie to the even one
def halfEven (y : ℚ) : ℤ :=
  if y - ⌊y⌋ < 1 / 2 then ⌊y⌋
  else if 1 / 2 < y - ⌊y⌋ then ⌊y⌋ + 1
  else if ⌊y⌋ % 2 = 0 then ⌊y⌋ else ⌊y⌋ + 1

-- the weight of the last of 53 significant bits
def lastPlace (x : ℚ) : ℚ := 2 ^ (Int.log 2 x - 52)

-- a non-negative number to the nearest double, away from underflow and overflow
def round (x : ℚ) : ℚ := halfEven (x / lastPlace x) * lastPlace x

section HalfEven

theorem abs_halfEven_sub_le (y : ℚ) : |(halfEven y : ℚ) - y| ≤ 1 / 2 := by
  have hlow : (⌊y⌋ : ℚ) ≤ y := Int.floor_le y
  have hhigh : y < ⌊y⌋ + 1 := Int.lt_floor_add_one y
  rw [abs_le]
  unfold halfEven
  split_ifs
  all_goals push_cast; constructor <;> linarith

theorem halfEven_intCast (n : ℤ) : halfEven n = n := by simp [halfEven]

theorem halfEven_mono {y z : ℚ} (h : y ≤ z) : halfEven y ≤ halfEven z := by
  rcases h.eq_or_lt with rfl | hlt
  · exact le_rfl
  · have hy := (abs_le.mp (abs_halfEven_sub_le y)).2
    have hz := (abs_le.mp (abs_halfEven_sub_le z)).1
    have hdiff : (halfEven y : ℚ) < halfEven z + 1 := by linarith
    exact Int.lt_add_one_iff.mp (by exact_mod_cast hdiff)

end HalfEven

section LastPlace

theorem lastPlace_pos (x : ℚ) : 0 < lastPlace x := zpow_pos two_pos _

theorem lastPlace_mul_pow (x : ℚ) (k : ℕ) : 2 ^ k * lastPlace x = 2 ^ (Int.log 2 x - 52 + k) := by
  rw [lastPlace, zpow_add₀ two_ne_zero, zpow_natCast, mul_comm]

theorem significand_bounds {x : ℚ} (hx : 0 < x) :
    2 ^ 52 ≤ x / lastPlace x ∧ x / lastPlace x < 2 ^ 53 := by
  have hlow : (2 : ℚ) ^ Int.log 2 x ≤ x := Int.zpow_log_le_self one_lt_two hx
  have hhigh : x < (2 : ℚ) ^ (Int.log 2 x + 1) := Int.lt_zpow_succ_log_self one_lt_two x
  rw [le_div_iff₀ (lastPlace_pos x), div_lt_iff₀ (lastPlace_pos x), lastPlace_mul_pow,
    lastPlace_mul_pow]
  constructor
  · calc (2 : ℚ) ^ (Int.log 2 x - 52 + (52 : ℕ)) = 2 ^ Int.log 2 x := congrArg _ (by push_cast; ring)
      _ ≤ x := hlow
  · calc x < (2 : ℚ) ^ (Int.log 2 x + 1) := hhigh
      _ = 2 ^ (Int.log 2 x - 52 + (53 : ℕ)) := congrArg _ (by push_cast; ring)

end LastPlace

section Round

variable {x y : ℚ}

theorem round_of_multiple {k : ℤ} (h : x = k * lastPlace x) : round x = x := by
  have hk : x / lastPlace x = k := by
    rw [div_eq_iff (lastPlace_pos x).ne']
    exact h
  rw [round, hk, halfEven_intCast]
  exact h.symm

theorem abs_round_sub_le (hx : 0 < x) : |round x - x| ≤ x / 2 ^ 53 := by
  have hpos := lastPlace_pos x
  have herr := abs_halfEven_sub_le (x / lastPlace x)
  have hscaled : round x - x = (halfEven (x / lastPlace x) - x / lastPlace x) * lastPlace x := by
    rw [round, sub_mul, div_mul_cancel₀ _ hpos.ne']
  have hlow : 2 ^ 52 * lastPlace x ≤ x := (le_div_iff₀ hpos).mp (significand_bounds hx).1
  rw [hscaled, abs_mul, abs_of_pos hpos]
  calc |(halfEven (x / lastPlace x) : ℚ) - x / lastPlace x| * lastPlace x
      ≤ 1 / 2 * lastPlace x := mul_le_mul_of_nonneg_right herr hpos.le
    _ ≤ x / 2 ^ 53 := by linarith

theorem round_bounds (hx : 0 < x) :
    (2 : ℚ) ^ Int.log 2 x ≤ round x ∧ round x ≤ 2 ^ (Int.log 2 x + 1) := by
  have hpos := lastPlace_pos x
  obtain ⟨hlow, hhigh⟩ := significand_bounds hx
  have hmin : (2 ^ 52 : ℤ) ≤ halfEven (x / lastPlace x) := by
    rw [← halfEven_intCast (2 ^ 52)]
    exact halfEven_mono (by exact_mod_cast hlow)
  have hmax : halfEven (x / lastPlace x) ≤ (2 ^ 53 : ℤ) := by
    rw [← halfEven_intCast (2 ^ 53)]
    exact halfEven_mono (by exact_mod_cast hhigh.le)
  constructor
  · calc (2 : ℚ) ^ Int.log 2 x = 2 ^ (Int.log 2 x - 52 + (52 : ℕ)) := congrArg _ (by push_cast; ring)
      _ = 2 ^ 52 * lastPlace x := (lastPlace_mul_pow x 52).symm
      _ ≤ round x := mul_le_mul_of_nonneg_right (by exact_mod_cast hmin) hpos.le
  · calc round x ≤ 2 ^ 53 * lastPlace x :=
          mul_le_mul_of_nonneg_right (by exact_mod_cast hmax) hpos.le
      _ = 2 ^ (Int.log 2 x - 52 + (53 : ℕ)) := lastPlace_mul_pow x 53
      _ = 2 ^ (Int.log 2 x + 1) := congrArg _ (by push_cast; ring)

theorem round_pos (hx : 0 < x) : 0 < round x :=
  (zpow_pos two_pos _).trans_le (round_bounds hx).1

theorem round_mono (hx : 0 < x) (h : x ≤ y) : round x ≤ round y := by
  have hlog : Int.log 2 x ≤ Int.log 2 y := Int.log_mono_right hx h
  rcases hlog.eq_or_lt with heq | hlt
  · have hplace : lastPlace x = lastPlace y := by rw [lastPlace, lastPlace, heq]
    have hle : halfEven (x / lastPlace y) ≤ halfEven (y / lastPlace y) :=
      halfEven_mono (div_le_div_of_nonneg_right h (lastPlace_pos y).le)
    rw [round, round, hplace]
    exact mul_le_mul_of_nonneg_right (by exact_mod_cast hle) (lastPlace_pos y).le
  · calc round x ≤ 2 ^ (Int.log 2 x + 1) := (round_bounds hx).2
      _ ≤ 2 ^ Int.log 2 y := zpow_le_zpow_right₀ one_le_two hlt
      _ ≤ round y := (round_bounds (hx.trans_le h)).1

theorem round_half (n : ℕ) (hn : n < 2 ^ 53) : round (n / 2) = n / 2 := by
  rcases Nat.eq_zero_or_pos n with rfl | hpos
  · simp [round, halfEven]
  · have hx : (0 : ℚ) < n / 2 := by positivity
    have hlt : ((n : ℚ) / 2) < 2 ^ (52 : ℤ) := by
      have hcast : (n : ℚ) < 2 ^ 53 := by exact_mod_cast hn
      norm_num
      linarith
    have hlog : Int.log 2 ((n : ℚ) / 2) < 52 := (Int.lt_zpow_iff_log_lt one_lt_two hx).mp hlt
    obtain ⟨k, hk⟩ := Int.eq_ofNat_of_zero_le (show 0 ≤ 51 - Int.log 2 ((n : ℚ) / 2) by omega)
    refine round_of_multiple (k := n * 2 ^ k) ?_
    have hexp : (2 : ℚ) ^ k * lastPlace ((n : ℚ) / 2) = 2 ^ (-1 : ℤ) := by
      rw [lastPlace_mul_pow]
      exact congrArg _ (by omega)
    push_cast
    rw [mul_assoc, hexp, zpow_neg_one, div_eq_mul_inv]

theorem round_natCast (n : ℕ) (hn : n < 2 ^ 52) : round n = n := by
  have hhalf := round_half (2 * n) (by omega)
  rw [Nat.cast_mul, Nat.cast_two, mul_div_cancel_left₀ _ two_ne_zero] at hhalf
  exact hhalf

end Round

section Nearest

theorem floor_div_add_half (a : ℕ) {b : ℕ} (hb : 0 < b) :
    ⌊(a / b : ℚ) + 1 / 2⌋ = ((2 * a + b) / (2 * b) : ℕ) := by
  have hb' : (b : ℚ) ≠ 0 := by exact_mod_cast hb.ne'
  have hsum : (a / b : ℚ) + 1 / 2 = ((2 * a + b : ℕ) : ℚ) / (2 * b : ℕ) := by
    push_cast
    field_simp
  rw [hsum, Rat.floor_natCast_div_natCast]
  push_cast
  rfl

theorem half_le_round {x : ℚ} {k : ℕ} (hpos : 0 < x) (hx : x < 2 ^ 52) (h : (k : ℚ) / 2 ≤ x) :
    (k : ℚ) / 2 ≤ round x := by
  rcases Nat.eq_zero_or_pos k with rfl | hk
  · simpa using (round_pos hpos).le
  · have hk' : (0 : ℚ) < k := by exact_mod_cast hk
    have hfits : k < 2 ^ 53 := by
      have hcast : (k : ℚ) < 2 ^ 53 := by linarith
      exact_mod_cast hcast
    calc (k : ℚ) / 2 = round (k / 2) := (round_half k hfits).symm
      _ ≤ round x := round_mono (by positivity) h

theorem round_div_lt_half {a b k : ℕ} (ha : 0 < a) (hb : 0 < b) (hsmall : a < 2 ^ 52)
    (h : (a / b : ℚ) < k / 2) : round (a / b) < k / 2 := by
  have ha' : (0 : ℚ) < a := by exact_mod_cast ha
  have hb' : (0 : ℚ) < b := by exact_mod_cast hb
  have hsmall' : (a : ℚ) < 2 ^ 52 := by exact_mod_cast hsmall
  have hterms : 2 * a + 1 ≤ k * b := by
    rw [div_lt_div_iff₀ hb' two_pos] at h
    have hlt : a * 2 < k * b := by exact_mod_cast h
    omega
  have hgap : (a / b : ℚ) + 1 / (2 * b) ≤ k / 2 := by
    have hterms' : (2 * a + 1 : ℚ) ≤ k * b := by exact_mod_cast hterms
    calc (a / b : ℚ) + 1 / (2 * b) = (2 * a + 1) / (2 * b) := by field_simp
      _ ≤ k * b / (2 * b) := div_le_div_of_nonneg_right hterms' (by positivity)
      _ = k / 2 := by field_simp
  have hmove : (a / b : ℚ) / 2 ^ 53 < 1 / (2 * b) := by
    rw [div_div, div_lt_div_iff₀ (by positivity) (by positivity)]
    nlinarith
  have herr := (abs_le.mp (abs_round_sub_le (div_pos ha' hb'))).2
  linarith

theorem floor_round_div_add_half {a b : ℕ} (ha : 0 < a) (hb : 0 < b) (hsmall : a < 2 ^ 52) :
    ⌊round (a / b) + 1 / 2⌋ = ((2 * a + b) / (2 * b) : ℕ) := by
  have hq : (0 : ℚ) < a / b := div_pos (by exact_mod_cast ha) (by exact_mod_cast hb)
  have hlt : (a / b : ℚ) < 2 ^ 52 := by
    have hb' : (1 : ℚ) ≤ b := by exact_mod_cast hb
    exact (div_le_self (Nat.cast_nonneg a) hb').trans_lt (by exact_mod_cast hsmall)
  have hfloor := floor_div_add_half a hb
  generalize (2 * a + b) / (2 * b) = n at hfloor ⊢
  obtain ⟨hlow, hhigh⟩ := Int.floor_eq_iff.mp hfloor
  push_cast at hlow hhigh
  refine Int.floor_eq_iff.mpr ⟨?_, ?_⟩
  · cases n with
    | zero =>
      have hround := round_pos hq
      push_cast
      linarith
    | succ n =>
      have hhalf := half_le_round (k := 2 * n + 1) hq hlt (by push_cast at hlow ⊢; linarith)
      push_cast at hhalf ⊢
      linarith
  · have hhalf := round_div_lt_half (k := 2 * n + 1) ha hb hsmall (by push_cast; linarith)
    push_cast at hhalf ⊢
    linarith

end Nearest


end Binary64
