import Mathlib.Algebra.Order.Field.Power
import Mathlib.Data.Int.Log
import Mathlib.Data.Rat.Floor
import Mathlib.Tactic.FieldSimp
import Mathlib.Tactic.Linarith
import Mathlib.Tactic.Positivity
import Mathlib.Tactic.Ring

/-!
# Decimal numbers with a fixed number of digits

The conversion `e` of `printf`: a rational is rounded to one digit before the point and a
fixed number of digits after it.
-/

namespace Llxvm

/-- The nearest integer, an even one if there are two. -/
def roundHalfEven (q : ℚ) : ℤ :=
  if 2 * (q - ⌊q⌋) < 1 ∨ 2 * (q - ⌊q⌋) = 1 ∧ ⌊q⌋ % 2 = 0 then ⌊q⌋ else ⌊q⌋ + 1

theorem abs_roundHalfEven_sub_le (q : ℚ) (k : ℤ) : |(roundHalfEven q : ℚ) - q| ≤ |k - q| := by
  have hlo := Int.floor_le q
  have hhi := Int.lt_floor_add_one q
  -- the other integers are at least as far away as the two neighbours
  have hnear : q - ⌊q⌋ ≤ |k - q| ∨ ⌊q⌋ + 1 - q ≤ |k - q| := by
    rcases lt_or_ge ⌊q⌋ k with h | h
    · right
      have hk : (⌊q⌋ : ℚ) + 1 ≤ k := by exact_mod_cast h
      exact le_trans (by linarith) (le_abs_self _)
    · left
      have hk : (k : ℚ) ≤ ⌊q⌋ := by exact_mod_cast h
      exact le_trans (by linarith) (neg_le_abs _)
  unfold roundHalfEven
  split_ifs with h
  · have hhalf : 2 * (q - ⌊q⌋) ≤ 1 := by rcases h with h | h <;> linarith [h]
    rw [abs_sub_comm, abs_of_nonneg (by linarith)]
    rcases hnear with h | h <;> linarith
  · have hhalf : 1 ≤ 2 * (q - ⌊q⌋) := by
      by_contra hlt
      exact h (.inl (not_le.mp hlt))
    push_cast
    rw [abs_of_nonneg (by linarith)]
    rcases hnear with h | h <;> linarith

/-- A number as it is written: its sign, its digits, how many of them are after the point, and
its exponent. -/
structure Decimal where
  neg : Bool
  digits : ℕ
  fraction : ℕ
  exp : ℤ
  deriving DecidableEq

namespace Decimal

def value (d : Decimal) : ℚ :=
  (if d.neg then -1 else 1) * d.digits * 10 ^ (d.exp - d.fraction)

/-- The exponent of the last digit that is written of `v`. -/
def lastExp (p : ℕ) (v : ℚ) : ℤ := Int.log 10 |v| - p

/-- The digits of `v` as an integer, rounded. -/
def significand (p : ℕ) (v : ℚ) : ℕ := (roundHalfEven (|v| / 10 ^ lastExp p v)).toNat

/-- `printf("%.<p>e", v)`. -/
def format (p : ℕ) (v : ℚ) : Decimal :=
  if significand p v = 10 ^ (p + 1) then ⟨v < 0, 10 ^ p, p, Int.log 10 |v| + 1⟩
  else ⟨v < 0, significand p v, p, Int.log 10 |v|⟩

/-- A number of at most `p + 1` significant digits. -/
def Short (p : ℕ) (q : ℚ) : Prop := ∃ m e : ℤ, |m| < 10 ^ (p + 1) ∧ q = m * 10 ^ e

section format

variable (p : ℕ) {v : ℚ}

/-- The distance of the numbers with the exponent of `v`. -/
def unit (v : ℚ) : ℚ := 10 ^ lastExp p v

theorem unit_pos (v : ℚ) : 0 < unit p v := by
  unfold unit
  positivity

theorem unit_mul_pow (v : ℚ) : unit p v * 10 ^ p = 10 ^ Int.log 10 |v| := by
  rw [unit, lastExp, ← zpow_natCast, ← zpow_add₀ (by norm_num)]
  congr 1
  ring

theorem le_abs (hv : v ≠ 0) : unit p v * 10 ^ p ≤ |v| := by
  rw [unit_mul_pow]
  exact_mod_cast Int.zpow_log_le_self (by norm_num) (abs_pos.mpr hv)

theorem abs_lt (v : ℚ) : |v| < unit p v * 10 ^ (p + 1) := by
  have h := Int.lt_zpow_succ_log_self (b := 10) (by norm_num) |v|
  rw [pow_succ, ← mul_assoc, unit_mul_pow, ← zpow_add_one₀ (by norm_num)]
  exact_mod_cast h

variable {p}

/-- A short number from the exponent of `v` on is a multiple of its unit. -/
theorem Short.exists_mul_unit {q : ℚ} (hq : Short p q) (h : unit p v * 10 ^ p ≤ |q|) :
    ∃ k : ℤ, q = k * unit p v := by
  obtain ⟨m, e, hm, rfl⟩ := hq
  have he : lastExp p v ≤ e := by
    by_contra hlt
    have hstep : (10 : ℚ) ^ (e + 1) ≤ unit p v := zpow_le_zpow_right₀ (by norm_num) (by omega)
    have hpow : (0 : ℚ) < 10 ^ e := by positivity
    have hm' : (|m| : ℚ) < 10 ^ (p + 1) := by exact_mod_cast hm
    have hsmall : |(m : ℚ) * 10 ^ e| < 10 ^ (p + 1) * 10 ^ e := by
      rw [abs_mul, abs_of_pos hpow]
      exact mul_lt_mul_of_pos_right hm' hpow
    have hlarge : (10 : ℚ) ^ (p + 1) * 10 ^ e ≤ unit p v * 10 ^ p := by
      calc (10 : ℚ) ^ (p + 1) * 10 ^ e = 10 ^ (e + 1) * 10 ^ p := by
            rw [zpow_add_one₀ (by norm_num)]
            ring
        _ ≤ unit p v * 10 ^ p := mul_le_mul_of_nonneg_right hstep (by positivity)
    linarith
  obtain ⟨j, hj⟩ := Int.eq_ofNat_of_zero_le (sub_nonneg.mpr he)
  refine ⟨m * 10 ^ j, ?_⟩
  have hsplit : (10 : ℚ) ^ e = 10 ^ j * unit p v := by
    rw [unit, ← zpow_natCast, ← zpow_add₀ (by norm_num)]
    congr 1
    omega
  rw [hsplit]
  push_cast
  ring

theorem Short.abs {q : ℚ} (hq : Short p q) : Short p |q| := by
  obtain ⟨m, e, hm, rfl⟩ := hq
  have hpow : (0 : ℚ) < 10 ^ e := zpow_pos (by norm_num) e
  refine ⟨|m|, e, by rwa [abs_abs], ?_⟩
  rw [abs_mul, abs_of_pos hpow, Int.cast_abs]

theorem natCast_significand (v : ℚ) :
    ((significand p v : ℕ) : ℚ) = (roundHalfEven (|v| / unit p v) : ℚ) := by
  have hnonneg : 0 ≤ |v| / unit p v := div_nonneg (abs_nonneg v) (unit_pos p v).le
  have hfloor : 0 ≤ ⌊|v| / unit p v⌋ := Int.floor_nonneg.mpr hnonneg
  have hround : 0 ≤ roundHalfEven (|v| / unit p v) := by
    unfold roundHalfEven
    split_ifs <;> omega
  rw [significand, ← unit, ← Int.cast_natCast, Int.toNat_of_nonneg hround]

/-- What is written is the rounded multiple of the unit, with the sign of `v`. -/
theorem value_format (p : ℕ) (v : ℚ) :
    (format p v).value = (if v < 0 then -1 else 1) * (significand p v * unit p v) := by
  unfold format
  split_ifs with hcarry
  all_goals simp only [value, unit, lastExp, *, if_true, if_false, decide_true, decide_false,
    Bool.false_eq_true]
  all_goals push_cast
  · have hexp : (10 : ℚ) ^ (Int.log 10 |v| + 1 - p) = 10 * 10 ^ (Int.log 10 |v| - p) := by
      rw [← zpow_one_add₀ (by norm_num)]
      congr 1
      ring
    rw [hexp]
    ring
  · have hexp : (10 : ℚ) ^ (Int.log 10 |v| + 1 - p) = 10 * 10 ^ (Int.log 10 |v| - p) := by
      rw [← zpow_one_add₀ (by norm_num)]
      congr 1
      ring
    rw [hexp]
    ring
  · ring
  · ring

theorem abs_value_format_sub (p : ℕ) (v : ℚ) :
    |(format p v).value - v| = |significand p v * unit p v - (|v|)| := by
  rw [value_format]
  split_ifs with h
  · rw [abs_of_neg h, ← abs_neg]
    congr 1
    ring
  · rw [abs_of_nonneg (not_lt.mp h), one_mul]

theorem abs_significand_sub_le (p : ℕ) (v : ℚ) (k : ℤ) :
    |significand p v * unit p v - (|v|)| ≤ |k * unit p v - (|v|)| := by
  have hpos := unit_pos p v
  have hscale : ∀ x : ℚ, |x * unit p v - (|v|)| = |x - (|v|) / unit p v| * unit p v := by
    intro x
    rw [← abs_of_pos hpos, ← abs_mul, abs_of_pos hpos, sub_mul, div_mul_cancel₀ _ hpos.ne']
  rw [hscale, hscale, natCast_significand]
  exact mul_le_mul_of_nonneg_right (abs_roundHalfEven_sub_le _ k) hpos.le

theorem abs_value_format_sub_le (hv : v ≠ 0) {q : ℚ} (hq : Short p q) :
    |(format p v).value - v| ≤ |q - v| := by
  rw [abs_value_format_sub]
  refine le_trans ?_ (abs_abs_sub_abs_le_abs_sub q v)
  rcases le_or_gt (unit p v * 10 ^ p) |q| with h | h
  · obtain ⟨k, rfl⟩ := hq.exists_mul_unit h
    rw [abs_mul, abs_of_pos (unit_pos p v), ← Int.cast_abs]
    exact abs_significand_sub_le p v |k|
  · -- below the power of ten that `v` has reached, that power is nearer
    have hle := le_abs p hv
    have hten := abs_significand_sub_le p v (10 ^ p)
    push_cast at hten
    rw [abs_of_nonpos (by linarith : 10 ^ p * unit p v - (|v|) ≤ 0)] at hten
    rw [abs_of_neg (by linarith : (|q|) - (|v|) < 0)]
    linarith

theorem short_format (v : ℚ) : Short p (format p v).value := by
  have hle : significand p v ≤ 10 ^ (p + 1) := by
    have hpos := unit_pos p v
    have hlt := abs_lt p v
    have hnear := abs_significand_sub_le p v (10 ^ (p + 1))
    push_cast at hnear
    rw [abs_of_pos (by linarith : 0 < 10 ^ (p + 1) * unit p v - (|v|))] at hnear
    have hupper := (le_abs_self _).trans hnear
    have : (significand p v : ℚ) * unit p v ≤ 10 ^ (p + 1) * unit p v := by linarith
    exact_mod_cast le_of_mul_le_mul_right this hpos
  have hdigits : (format p v).digits < 10 ^ (p + 1) := by
    unfold format
    split_ifs with hcarry
    · exact Nat.pow_lt_pow_right (by norm_num) (Nat.lt_succ_self p)
    · exact lt_of_le_of_ne hle hcarry
  refine ⟨(if (format p v).neg then -1 else 1) * (format p v).digits,
    (format p v).exp - (format p v).fraction, ?_, ?_⟩
  · rw [abs_mul, Nat.abs_cast]
    have hsign : |(if (format p v).neg = true then (-1 : ℤ) else 1)| = 1 := by split_ifs <;> rfl
    rw [hsign, one_mul]
    exact_mod_cast hdigits
  · unfold value
    push_cast
    split_ifs <;> simp

theorem abs_value_format (v : ℚ) : |(format p v).value| = significand p v * unit p v := by
  have hmul : 0 ≤ (significand p v : ℚ) * unit p v :=
    mul_nonneg (Nat.cast_nonneg _) (unit_pos p _).le
  rw [value_format, abs_mul, abs_of_nonneg hmul]
  split_ifs <;> simp

theorem sign_format (hv : v ≠ 0) : 0 < (format p v).value * v := by
  have hpos : 0 < significand p v * unit p v * |v| := by
    have hsig : 0 < (significand p v : ℚ) * unit p v := by
      by_contra hzero
      have hle := le_abs p hv
      have hunit := unit_pos p v
      have hnear := abs_significand_sub_le p v (10 ^ p)
      push_cast at hnear
      have hpow : (0 : ℚ) < 10 ^ p := by positivity
      have htop : 0 < 10 ^ p * unit p v := by positivity
      rw [mul_comm] at hle
      rw [abs_of_nonpos (by linarith : 10 ^ p * unit p v - (|v|) ≤ 0)] at hnear
      have := (neg_le_abs _).trans hnear
      linarith
    exact mul_pos hsig (abs_pos.mpr hv)
  rw [value_format]
  split_ifs with h
  · rw [abs_of_neg h] at hpos
    linarith
  · rwa [abs_of_nonneg (not_lt.mp h), ← one_mul (significand p v * unit p v : ℚ)] at hpos

end format

end Decimal

end Llxvm
