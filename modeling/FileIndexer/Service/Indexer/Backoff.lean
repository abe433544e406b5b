import FileIndexer.Service.Indexer.Runner

namespace FileIndexer

section Doubling

def DoublesExactly (backoffMax : Int) : Nat → Int → Prop
  | 0, _ => True
  | n + 1, d =>
    wrap 64 (d * 2) = d * 2 ∧
      (backoffMax ≤ wrap 64 (d * 2) ∨ DoublesExactly backoffMax n (wrap 64 (d * 2)))

variable {backoffMax : Int}

theorem wrap_double {d : Int} (hpos : 0 < d) (hlt : d < 2 ^ 63) :
    wrap 64 (d * 2) = if d * 2 < 2 ^ 63 then d * 2 else d * 2 - 2 ^ 64 :=
  wrap_of_lt (by omega) (by omega)

theorem wrap_double_eq_iff {d : Int} (hpos : 0 < d) (hlt : d < 2 ^ 63) :
    wrap 64 (d * 2) = d * 2 ↔ d * 2 < 2 ^ 63 := by
  rw [wrap_double hpos hlt]
  split <;> omega

theorem le_mul_two_pow {d : Int} (hpos : 0 < d) (n : Nat) : d ≤ d * 2 ^ n := by
  have hone : (1 : Int) ≤ 2 ^ n := one_le_pow₀ (by omega)
  exact le_mul_of_one_le_right hpos.le hone

theorem backoffLoop_eq {n : Nat} {d : Int} (hpos : 0 < d) (h : DoublesExactly backoffMax n d) :
    backoffLoop backoffMax n d = min (d * 2 ^ n) backoffMax := by
  induction n generalizing d with
  | zero => rw [backoffLoop, pow_zero, mul_one]
  | succ n ih =>
    obtain ⟨hexact, hrest⟩ := h
    have hpow : d * 2 * 2 ^ n = d * 2 ^ (n + 1) := by ring
    rw [backoffLoop]
    rw [hexact] at hrest ⊢
    split
    · rename_i hcap
      have hgrow := le_mul_two_pow (show 0 < d * 2 by omega) n
      rw [hpow] at hgrow
      exact (min_eq_right (hcap.trans hgrow)).symm
    · rename_i hcap
      rw [ih (by omega) (hrest.resolve_left hcap), hpow]

theorem DoublesExactly.mono {m n : Nat} {d : Int} (h : DoublesExactly backoffMax n d) (hmn : m ≤ n) :
    DoublesExactly backoffMax m d := by
  induction m generalizing n d with
  | zero => trivial
  | succ m ih =>
    cases n with
    | zero => omega
    | succ n => exact ⟨h.1, h.2.imp_right fun hrest => ih hrest (by omega)⟩

theorem doublesExactly_iff {n : Nat} {d : Int} (hpos : 0 < d) (hlt : d < 2 ^ 63) :
    DoublesExactly backoffMax n d ↔
      d * 2 ^ n < 2 ^ 63 ∨ ∃ k, 1 ≤ k ∧ k ≤ n ∧ backoffMax ≤ d * 2 ^ k ∧ d * 2 ^ k < 2 ^ 63 := by
  induction n generalizing d with
  | zero => simpa [DoublesExactly] using hlt
  | succ n ih =>
    have hpow (k : Nat) : d * 2 * 2 ^ k = d * 2 ^ (k + 1) := by ring
    rw [DoublesExactly, wrap_double_eq_iff hpos hlt]
    constructor
    · rintro ⟨hfits, h⟩
      rw [(wrap_double_eq_iff hpos hlt).mpr hfits, ih (by omega) hfits, hpow] at h
      rcases h with hcap | hsmall | ⟨k, hk, hkn, hcap, hfits⟩
      · exact .inr ⟨1, by omega, by omega, by omega, by omega⟩
      · exact .inl hsmall
      · rw [hpow] at hcap hfits
        exact .inr ⟨k + 1, by omega, by omega, hcap, hfits⟩
    · intro h
      have hfits : d * 2 < 2 ^ 63 := by
        rcases h with hsmall | ⟨k, hk, -, -, hsmall⟩
        · have hgrow := le_mul_two_pow (show 0 < d * 2 by omega) n
          rw [hpow] at hgrow
          omega
        · have hgrow := le_mul_two_pow (show 0 < d * 2 by omega) (k - 1)
          rw [hpow, Nat.sub_add_cancel hk] at hgrow
          omega
      refine ⟨hfits, ?_⟩
      rw [(wrap_double_eq_iff hpos hlt).mpr hfits, ih (by omega) hfits, hpow]
      rcases h with hsmall | ⟨k, hk, hkn, hcap, hsmall⟩
      · exact .inr (.inl hsmall)
      · cases k with
        | zero => omega
        | succ k =>
          by_cases hone : k = 0
          · subst hone
            exact .inl (by omega)
          · rw [← hpow] at hcap hsmall
            exact .inr (.inr ⟨k, by omega, by omega, hcap, hsmall⟩)

theorem exists_backoffLoop_neg {m : Nat} {d : Int} (hmax : 0 < backoffMax) (hpos : 0 < d)
    (hlt : d < 2 ^ 63) (hover : 2 ^ 63 ≤ d * 2 ^ m)
    (hbelow : ∀ k, 1 ≤ k → d * 2 ^ k < 2 ^ 63 → d * 2 ^ k < backoffMax) :
    ∃ n, 1 ≤ n ∧ n ≤ m ∧ backoffLoop backoffMax n d < 0 := by
  induction m generalizing d with
  | zero => omega
  | succ m ih =>
    have hpow (k : Nat) : d * 2 * 2 ^ k = d * 2 ^ (k + 1) := by ring
    by_cases hfits : d * 2 < 2 ^ 63
    · have hcap : ¬ backoffMax ≤ d * 2 := by
        have hfirst := hbelow 1 (by omega) (by omega)
        omega
      have hrest (k : Nat) (_ : 1 ≤ k) : d * 2 * 2 ^ k < 2 ^ 63 → d * 2 * 2 ^ k < backoffMax := by
        rw [hpow]
        exact hbelow (k + 1) (by omega)
      obtain ⟨n, hn, hnm, hneg⟩ := ih (by omega) hfits (by rwa [hpow]) hrest
      refine ⟨n + 1, by omega, by omega, ?_⟩
      rw [backoffLoop, (wrap_double_eq_iff hpos hlt).mpr hfits, if_neg hcap]
      exact hneg
    · have hwrapped : wrap 64 (d * 2) = d * 2 - 2 ^ 64 := by rw [wrap_double hpos hlt, if_neg hfits]
      have hneg : d * 2 - 2 ^ 64 < 0 := by omega
      refine ⟨1, by omega, by omega, ?_⟩
      rw [backoffLoop, hwrapped, if_neg (hneg.trans hmax).not_ge, backoffLoop]
      exact min_lt_of_left_lt hneg

end Doubling

section Delay

variable {cfg : IndexerConfig} {attempts : Int}

structure BacksOff (cfg : IndexerConfig) (attempts : Int) : Prop where
  value : backoff cfg attempts = min (cfg.backoffBase * 2 ^ (attempts - 1).toNat) cfg.backoffMax
  doubles : DoublesExactly cfg.backoffMax (attempts - 1).toNat cfg.backoffBase
  positive : 0 < backoff cfg attempts
  capped : backoff cfg attempts ≤ cfg.backoffMax
  nonDecreasing : ∀ earlier, 1 ≤ earlier → earlier ≤ attempts →
    backoff cfg earlier ≤ backoff cfg attempts

theorem backoff_eq (hbase : 0 < cfg.backoffBase)
    (h : DoublesExactly cfg.backoffMax (attempts - 1).toNat cfg.backoffBase) :
    backoff cfg attempts = min (cfg.backoffBase * 2 ^ (attempts - 1).toNat) cfg.backoffMax :=
  backoffLoop_eq hbase h

theorem backsOff_of_doublesExactly (hbase : 0 < cfg.backoffBase) (hmax : 0 < cfg.backoffMax)
    (h : DoublesExactly cfg.backoffMax (attempts - 1).toNat cfg.backoffBase) :
    BacksOff cfg attempts where
  value := backoff_eq hbase h
  doubles := h
  positive := by
    rw [backoff_eq hbase h]
    exact lt_min (by positivity) hmax
  capped := by
    rw [backoff_eq hbase h]
    exact min_le_right _ _
  nonDecreasing earlier hone hle := by
    have hsteps : (earlier - 1).toNat ≤ (attempts - 1).toNat := by omega
    have hpow : (2 : Int) ^ (earlier - 1).toNat ≤ 2 ^ (attempts - 1).toNat :=
      pow_le_pow_right₀ (by omega) hsteps
    rw [backoff_eq hbase h, backoff_eq hbase (h.mono hsteps)]
    apply min_le_min_right
    exact mul_le_mul_of_nonneg_left hpow hbase.le

theorem backsOff_iff (hbase : 0 < cfg.backoffBase) (hlt : cfg.backoffBase < 2 ^ 63)
    (hmax : 0 < cfg.backoffMax) :
    BacksOff cfg attempts ↔
      cfg.backoffBase * 2 ^ (attempts - 1).toNat < 2 ^ 63 ∨
        ∃ k : Nat, 1 ≤ k ∧ k < attempts ∧ cfg.backoffMax ≤ cfg.backoffBase * 2 ^ k ∧
          cfg.backoffBase * 2 ^ k < 2 ^ 63 := by
  have hsteps (k : Nat) (hk : 1 ≤ k) : k ≤ (attempts - 1).toNat ↔ k < attempts := by omega
  constructor
  · intro h
    rcases (doublesExactly_iff hbase hlt).mp h.doubles with hsmall | ⟨k, hk, hkn, hcap⟩
    · exact .inl hsmall
    · exact .inr ⟨k, hk, (hsteps k hk).mp hkn, hcap⟩
  · intro h
    apply backsOff_of_doublesExactly hbase hmax
    apply (doublesExactly_iff hbase hlt).mpr
    rcases h with hsmall | ⟨k, hk, hkn, hcap⟩
    · exact .inl hsmall
    · exact .inr ⟨k, hk, (hsteps k hk).mpr hkn, hcap⟩

def defaultBackoff : IndexerConfig := ⟨32, 5, 600000000000, 10000000000, 600000000000⟩

theorem default_backsOff :
    BacksOff defaultBackoff 50 ∧ backoff defaultBackoff 50 = defaultBackoff.backoffMax := by
  constructor
  · apply (backsOff_iff (by decide) (by decide) (by decide)).mpr
    exact .inr ⟨6, by decide, by decide, by decide, by decide⟩
  · decide

def uncappedBackoff : IndexerConfig := ⟨32, 100, 600000000000, 10000000000, 9223372036854775807⟩

theorem uncapped_wraps : ¬ BacksOff uncappedBackoff 31 ∧
    backoff uncappedBackoff 31 = -7709325833709551616 := by
  have hneg : backoff uncappedBackoff 31 = -7709325833709551616 := by decide
  refine ⟨?_, hneg⟩
  intro h
  have hpos := h.positive
  rw [hneg] at hpos
  cases hpos

theorem backsOff_always_iff (hbase : 0 < cfg.backoffBase) (hlt : cfg.backoffBase < 2 ^ 63)
    (hmax : 0 < cfg.backoffMax) :
    (∀ attempts, BacksOff cfg attempts) ↔
      ∃ k : Nat, 1 ≤ k ∧ cfg.backoffMax ≤ cfg.backoffBase * 2 ^ k ∧
        cfg.backoffBase * 2 ^ k < 2 ^ 63 := by
  constructor
  · intro h
    by_contra hnone
    have hover : (2 : Int) ^ 63 ≤ cfg.backoffBase * 2 ^ 63 :=
      le_mul_of_one_le_left (by positivity) hbase
    have hbelow (k : Nat) (hk : 1 ≤ k) (hfits : cfg.backoffBase * 2 ^ k < 2 ^ 63) :
        cfg.backoffBase * 2 ^ k < cfg.backoffMax := by
      by_contra hcap
      exact hnone ⟨k, hk, not_lt.mp hcap, hfits⟩
    obtain ⟨n, hn, -, hneg⟩ := exists_backoffLoop_neg hmax hbase hlt hover hbelow
    have hpos := (h (n + 1)).positive
    rw [backoff, show ((n + 1 : Int) - 1).toNat = n by omega] at hpos
    exact lt_asymm hpos hneg
  · rintro ⟨k, hk, hcap, hfits⟩ attempts
    apply backsOff_of_doublesExactly hbase hmax
    apply DoublesExactly.mono (n := max k (attempts - 1).toNat) _ (le_max_right _ _)
    exact (doublesExactly_iff hbase hlt).mpr (.inr ⟨k, hk, le_max_left _ _, hcap, hfits⟩)

end Delay

end FileIndexer
