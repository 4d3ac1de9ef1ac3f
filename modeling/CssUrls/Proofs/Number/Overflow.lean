import CssUrls.Number.Double
import Mathlib.Algebra.Order.Field.Rat
import Mathlib.Tactic.Positivity

/-! Where the finite numbers end.

A decimal is beyond the finite numbers from `2 ^ 1024 - 2 ^ 970` on (`ofDecimal?_eq_none_iff`). That is halfway
between the greatest of them and the power of two that would come next, and goes to the latter as the even one. The
exponents that `decimalRank` does not raise to are on the right side of it. -/
namespace CssUrls.Double

/-! ### Rounding to the nearest integer -/

theorem halfEven_cases (n d : Nat) :
    (halfEven n d = n / d ∧ 2 * (n % d) ≤ d) ∨ (halfEven n d = n / d + 1 ∧ d ≤ 2 * (n % d)) := by
  unfold halfEven
  split
  · exact .inl ⟨rfl, by omega⟩
  · exact .inr ⟨rfl, by omega⟩

/-- From half on an odd quotient is rounded up. -/
theorem halfEven_of_odd {n d : Nat} (hodd : n / d % 2 = 1) (hhalf : d ≤ 2 * (n % d)) :
    halfEven n d = n / d + 1 := by
  unfold halfEven
  rw [if_neg]
  omega

/-! ### Ranks -/

/-- Halfway between `2 ^ (t + 54)` and the magnitude below it, of those whose significands have 53 digits. -/
def threshold (t : Nat) : Nat := (2 ^ 54 - 1) * 2 ^ t

theorem threshold_pos (t : Nat) : 0 < threshold t := Nat.mul_pos (by decide) (Nat.two_pow_pos t)

theorem threshold_add (t s : Nat) : threshold (t + s) = threshold t * 2 ^ s := by
  rw [threshold, threshold, Nat.pow_add, Nat.mul_assoc]

theorem threshold_le (t : Nat) : threshold t ≤ 2 ^ (54 + t) := by
  rw [threshold, Nat.pow_add]
  exact Nat.mul_le_mul_right _ (Nat.sub_le ..)

theorem cast_threshold (t : Nat) : (threshold t : ℚ) = 2 ^ (54 + t) - 2 ^ t := by
  rw [threshold, Nat.cast_mul, Nat.cast_sub (by decide), pow_add, sub_mul, Nat.cast_one, one_mul, Nat.cast_pow,
    Nat.cast_pow, Nat.cast_ofNat]

section Ranks
variable {a d : Nat}

/-- How many binary digits a quotient has beyond those of a significand. -/
def excess (a d : Nat) : Nat := (a / d).log2 - 52

/-- The rank nearest to a quotient of units. -/
def unitsRank (a d : Nat) : Nat := excess a d * 2 ^ 52 + halfEven a (d * 2 ^ excess a d)

/-- Without the digits in excess a quotient is a significand. -/
theorem significand_lt : a / (d * 2 ^ excess a d) < 2 ^ 53 := by
  rw [← Nat.div_div_eq_div_mul, Nat.div_lt_iff_lt_mul (Nat.two_pow_pos _), ← Nat.pow_add]
  refine Nat.lt_of_lt_of_le Nat.lt_log2_self (Nat.pow_le_pow_right (by decide) ?_)
  unfold excess
  omega

theorem le_significand (h : 0 < excess a d) : 2 ^ 52 ≤ a / (d * 2 ^ excess a d) := by
  have hne : a / d ≠ 0 := by
    intro hzero
    rw [excess, hzero] at h
    contradiction
  rw [← Nat.div_div_eq_div_mul, Nat.le_div_iff_mul_le (Nat.two_pow_pos _), ← Nat.pow_add]
  refine Nat.le_trans (Nat.pow_le_pow_right (by decide) ?_) (Nat.log2_self_le hne)
  unfold excess at h ⊢
  omega

/-- **Ranks reach `2 ^ (t + 54)`** from halfway between the magnitude below it and that power on. -/
theorem le_unitsRank_iff (hd : 0 < d) (t : Nat) :
    (t + 3) * 2 ^ 52 ≤ unitsRank a d ↔ d * threshold t ≤ a := by
  have hlt := significand_lt (a := a) (d := d)
  have hle := le_significand (a := a) (d := d)
  have hcases := halfEven_cases a (d * 2 ^ excess a d)
  have hodd := halfEven_of_odd (n := a) (d := d * 2 ^ excess a d)
  have hmod := Nat.mod_lt a (Nat.mul_pos hd (Nat.two_pow_pos (excess a d)))
  have hdivmod := Nat.div_add_mod a (d * 2 ^ excess a d)
  have hpos : 0 < d * 2 ^ t := Nat.mul_pos hd (Nat.two_pow_pos _)
  rw [threshold, Nat.mul_left_comm, unitsRank]
  generalize excess a d = e at *
  generalize a % (d * 2 ^ e) = rest at *
  generalize a / (d * 2 ^ e) = whole at *
  generalize halfEven a (d * 2 ^ e) = rounded at *
  -- The power of two is the last but one of the significands that are scaled by `2 ^ (t + 1)`.
  rcases Nat.lt_trichotomy e (t + 1) with hsmall | rfl | hbig
  · have hscale : d * 2 ^ e ≤ d * 2 ^ t := Nat.mul_le_mul_left d (Nat.pow_le_pow_right (by decide) (by omega))
    have hwhole : d * 2 ^ e * whole ≤ d * 2 ^ e * (2 ^ 53 - 1) := Nat.mul_le_mul_left _ (by omega)
    refine iff_of_false ?_ ?_ <;> omega
  · have hscale : d * 2 ^ (t + 1) = 2 * (d * 2 ^ t) := by rw [Nat.pow_succ, Nat.mul_comm _ 2, Nat.mul_left_comm]
    generalize d * 2 ^ (t + 1) = unit at *
    generalize d * 2 ^ t = half at *
    subst hscale
    constructor
    · intro hreaches
      have hwhole : whole = 2 ^ 53 - 1 := by omega
      subst hwhole
      omega
    · intro hbeyond
      have hwhole : whole = 2 ^ 53 - 1 := by
        refine Nat.le_antisymm (by omega) (Nat.le_of_not_lt fun hfew => ?_)
        have hbelow : 2 * half * whole ≤ 2 * half * (2 ^ 53 - 2) := Nat.mul_le_mul_left _ (by omega)
        omega
      subst hwhole
      have hup := hodd rfl (by omega)
      omega
  · have hscale : d * 2 ^ (t + 2) ≤ d * 2 ^ e := Nat.mul_le_mul_left d (Nat.pow_le_pow_right (by decide) hbig)
    have hfour : d * 2 ^ (t + 2) = 4 * (d * 2 ^ t) := by rw [Nat.pow_add, Nat.mul_comm _ (2 ^ 2), Nat.mul_left_comm]
    have hfull := hle (by omega)
    have hwhole : d * 2 ^ e * 2 ^ 52 ≤ d * 2 ^ e * whole := Nat.mul_le_mul_left _ hfull
    rw [hfour] at hscale
    refine iff_of_true ?_ ?_
    · have hrank : (t + 2) * 2 ^ 52 ≤ e * 2 ^ 52 := Nat.mul_le_mul_right _ hbig
      have hrounded : whole ≤ rounded := by omega
      rw [Nat.succ_mul]
      exact Nat.add_le_add hrank (Nat.le_trans hfull hrounded)
    · generalize d * 2 ^ t = half at *
      generalize d * 2 ^ e = unit at *
      clear hfour hodd hle hlt hcases
      omega

end Ranks

/-! ### Decimals -/

/-- The same for a quotient that has `2 ^ s` units to one. -/
theorem unitsRank_lt_iff (n : Nat) {d : Nat} (hd : 0 < d) (t s : Nat) :
    unitsRank (n * Nat.pow 2 s) d < (t + s + 3) * 2 ^ 52 ↔ n < d * threshold t := by
  rw [← Nat.not_le, ← Nat.not_le, le_unitsRank_iff hd, threshold_add, ← Nat.mul_assoc]
  exact not_congr (Nat.mul_le_mul_right_iff (Nat.two_pow_pos s))

theorem nearestRank_lt_iff (n : Nat) {d : Nat} (hd : 0 < d) :
    nearestRank n d < rankLimit ↔ n < d * threshold 970 := by
  have hunits : nearestRank n d = unitsRank (n * Nat.pow 2 1074) d := rfl
  have hlimit : rankLimit = (970 + 1074 + 3) * 2 ^ 52 := rfl
  rw [hunits, hlimit]
  -- As a variable the exponent is not taken for one to be evaluated.
  generalize 1074 = s
  exact unitsRank_lt_iff n hd 970 s

theorem threshold_le_pow {t j k : Nat} (ht : 54 + t ≤ 205 * j) (hk : 62 * j ≤ k) : threshold t ≤ 10 ^ k := by
  have hbase : 2 ^ 205 ≤ 10 ^ 62 := by decide
  calc threshold t ≤ 2 ^ (54 + t) := threshold_le t
    _ ≤ 2 ^ (205 * j) := Nat.pow_le_pow_right Nat.two_pos ht
    _ = (2 ^ 205) ^ j := Nat.pow_mul 2 205 j
    _ ≤ (10 ^ 62) ^ j := Nat.pow_le_pow_left hbase j
    _ = 10 ^ (62 * j) := (Nat.pow_mul 10 62 j).symm
    _ ≤ 10 ^ k := Nat.pow_le_pow_right (by decide) hk

theorem decimalRank_ofNat_lt_iff (m k : Nat) : decimalRank m (.ofNat k) < rankLimit ↔ m * 10 ^ k < threshold 970 := by
  rw [decimalRank]
  split
  · rename_i hzero
    subst hzero
    rw [Nat.zero_mul]
    exact iff_of_true rankLimit_pos (threshold_pos 970)
  · rename_i hne
    split
    · rename_i hlarge
      refine iff_of_false (Nat.lt_irrefl _) (Nat.not_lt.mpr ?_)
      exact Nat.le_trans (threshold_le_pow (j := 5) (by decide) hlarge) (Nat.le_mul_of_pos_left _ (Nat.pos_of_ne_zero hne))
    · rw [nearestRank_lt_iff _ Nat.one_pos, Nat.one_mul]
      rfl

theorem decimalRank_negSucc_lt_iff (m k : Nat) :
    decimalRank m (.negSucc k) < rankLimit ↔ m < 10 ^ (k + 1) * threshold 970 := by
  rw [decimalRank]
  split
  · rename_i hsmall
    refine iff_of_true rankLimit_pos ?_
    have hpow : 2 ^ (3 * (k + 1)) ≤ 10 ^ (k + 1) := by
      rw [Nat.pow_mul]
      exact Nat.pow_le_pow_left (by decide) _
    have hm : m < 2 ^ (3 * (k + 1)) := by
      rcases hsmall with rfl | hsmall
      · exact Nat.two_pow_pos _
      · exact Nat.lt_of_lt_of_le Nat.lt_log2_self (Nat.pow_le_pow_right (by decide) (by omega))
    calc m < 2 ^ (3 * (k + 1)) := hm
      _ ≤ 10 ^ (k + 1) := hpow
      _ ≤ 10 ^ (k + 1) * threshold 970 := Nat.le_mul_of_pos_right _ (threshold_pos 970)
  · exact nearestRank_lt_iff m (Nat.pow_pos (by decide))

/-- **A decimal is beyond the finite numbers** from halfway between the greatest of them and `2 ^ 1024` on. -/
theorem ofDecimal?_eq_none_iff (negative : Bool) (m : Nat) (e : Int) :
    ofDecimal? negative m e = none ↔ (2 ^ 1024 - 2 ^ 970 : ℚ) ≤ m * 10 ^ e := by
  have hthreshold : (2 ^ 1024 - 2 ^ 970 : ℚ) = threshold 970 := (cast_threshold 970).symm
  have hnone : ofDecimal? negative m e = none ↔ ¬ decimalRank m e < rankLimit := by
    unfold ofDecimal?
    split <;> simp [*]
  rw [hnone, hthreshold]
  cases e with
  | ofNat k =>
    rw [decimalRank_ofNat_lt_iff, Nat.not_lt, Int.ofNat_eq_natCast, zpow_natCast]
    exact_mod_cast Iff.rfl
  | negSucc k =>
    rw [decimalRank_negSucc_lt_iff, Nat.not_lt, zpow_negSucc, ← div_eq_mul_inv, le_div_iff₀ (by positivity),
      mul_comm]
    exact_mod_cast Iff.rfl

end CssUrls.Double
