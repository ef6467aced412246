import Llxvm.Lib.Decimal
import Llxvm.Lib.FloatFormat
import Mathlib.Tactic.IntervalCases

/-!
# Printed values read back

A value of a binary format that is written with `p + 1` significant digits.  What is written
is read as the value if any number of so many digits is.
-/

namespace Llxvm.FloatFormat

open Decimal

variable (F : FloatFormat) (p : ℕ)

/-- Of two neighbouring short numbers around a value the lower one, if it is not farther away,
is read as the value when the upper one is. -/
def Separated (n : ℕ) : Prop :=
  ∀ k : ℤ, k * unit p (F.mag n) < F.mag n →
    F.mag n - k * unit p (F.mag n) ≤ (k + 1) * unit p (F.mag n) - F.mag n →
    Within n ((k + 1) * unit p (F.mag n) - F.mag n) (F.gap n / 2) →
    Within n (F.mag n - k * unit p (F.mag n)) (F.gap (n - 1) / 2)

variable {F p} {n : ℕ}

/-- The interval is symmetric but for the powers of two. -/
theorem separated_of_gap_eq (h : F.gap (n - 1) = F.gap n) : F.Separated p n := by
  intro k _ hle hwithin
  exact hwithin.mono hle (by rw [h])

theorem mag_eq_mul_gap (hmod : n % 2 ^ F.mantissa = 0) (hdiv : 2 ≤ n / 2 ^ F.mantissa) :
    F.mag n = 2 ^ F.mantissa * F.gap n := by
  rw [mag, gap, scaled, if_neg (by omega), hmod, Nat.add_zero]
  push_cast
  ring

theorem Within.le {d r : ℚ} (h : Within n d r) : d ≤ r := by
  rcases h with h | ⟨h, -⟩
  · exact h.le
  · exact h.le

/-- A format with enough bits: two short numbers are never as near as two values. -/
theorem separated_of_le (hn : n ≠ 0) (hdigits : 10 ^ (p + 1) ≤ 2 ^ F.mantissa) :
    F.Separated p n := by
  rcases F.gap_pred_cases hn with heq | ⟨hmod, hdiv, -⟩
  · exact separated_of_gap_eq heq
  · intro k _ hle hwithin
    exfalso
    have hunit := unit_pos p (F.mag n)
    have habs := abs_lt p (F.mag n)
    rw [abs_of_nonneg (F.mag_nonneg n)] at habs
    have hupper := hwithin.le
    have hmag := mag_eq_mul_gap hmod hdiv
    have hdigits' : (10 : ℚ) ^ (p + 1) ≤ 2 ^ F.mantissa := by exact_mod_cast hdigits
    have hgap : unit p (F.mag n) ≤ F.gap n := by linarith
    have : 2 ^ F.mantissa * unit p (F.mag n) ≤ 2 ^ F.mantissa * F.gap n :=
      mul_le_mul_of_nonneg_left hgap (by positivity)
    have : unit p (F.mag n) * 10 ^ (p + 1) ≤ unit p (F.mag n) * 2 ^ F.mantissa :=
      mul_le_mul_of_nonneg_left hdigits' hunit.le
    linarith

/-- The two numbers are on different sides of the value. -/
theorem Separated.within (hsep : F.Separated p n) {k j : ℤ} (hk : k * unit p (F.mag n) < F.mag n)
    (hj : F.mag n ≤ j * unit p (F.mag n))
    (hnear : |k * unit p (F.mag n) - F.mag n| ≤ |(k + 1) * unit p (F.mag n) - F.mag n|)
    (h : Within n (j * unit p (F.mag n) - F.mag n) (F.gap n / 2)) :
    Within n (F.mag n - k * unit p (F.mag n)) (F.gap (n - 1) / 2) := by
  have hunit := unit_pos p (F.mag n)
  have hlt : (k : ℚ) < j := lt_of_mul_lt_mul_right (hk.trans_le hj) hunit.le
  have hstep : (k : ℚ) + 1 ≤ j := by exact_mod_cast hlt
  rw [abs_of_neg (sub_neg.mpr hk), neg_sub] at hnear
  have hnonneg : 0 ≤ (k + 1) * unit p (F.mag n) - F.mag n := by
    by_contra hneg
    rw [abs_of_neg (not_le.mp hneg)] at hnear
    linarith
  rw [abs_of_nonneg hnonneg] at hnear
  have hupper := mul_le_mul_of_nonneg_right hstep hunit.le
  exact hsep k hk hnear (h.mono (by linarith) le_rfl)

theorem unit_signed (neg : Bool) : unit p (F.signed neg n) = unit p (F.mag n) := by
  rw [unit, unit, lastExp, lastExp, abs_signed, abs_of_nonneg (F.mag_nonneg n)]

theorem sign_value_format (neg : Bool) (hn : n ≠ 0) :
    if neg then (format p (F.signed neg n)).value < 0
    else 0 < (format p (F.signed neg n)).value := by
  have hkeep := sign_format (p := p) (F.signed_ne_zero neg hn)
  have hpos := F.mag_pos hn
  cases neg <;> simp only [signed, if_true, if_false, Bool.false_eq_true] at hkeep ⊢
  · exact (mul_pos_iff_of_pos_right hpos).mp hkeep
  · nlinarith

/-- If some short number is read as the value, then so is the one that is written. -/
theorem reads_format (neg : Bool) (hn : n ≠ 0) (hsep : F.Separated p n) {q : ℚ} (hq : Short p q)
    (hnear : |(|(format p (F.signed neg n)).value|) - F.mag n| ≤ |q - F.mag n|)
    (h : F.Reads q n) : F.Reads |(format p (F.signed neg n)).value| n := by
  have hpos := F.mag_pos hn
  have hgap := F.gap_pos n
  have hgap' := F.gap_pos (n - 1)
  have hmono : F.gap (n - 1) ≤ F.gap n := F.gap_mono (Nat.sub_le n 1)
  rw [abs_value_format, unit_signed] at *
  have hnext := abs_significand_sub_le p (F.signed neg n) (significand p (F.signed neg n) + 1)
  rw [unit_signed, abs_signed] at hnext
  push_cast at hnext
  generalize significand p (F.signed neg n) = k at *
  rcases le_or_gt (F.mag n) (k * unit p (F.mag n)) with hover | hunder
  · rw [abs_of_nonneg (sub_nonneg.mpr hover)] at hnear
    refine ⟨fun _ => .inl (by linarith), ?_⟩
    rcases le_or_gt (F.mag n) q with hq' | hq'
    · rw [abs_of_nonneg (sub_nonneg.mpr hq')] at hnear
      exact h.above.mono hnear le_rfl
    · rw [abs_of_neg (sub_neg.mpr hq'), neg_sub] at hnear
      exact (h.below hn).mono hnear (by linarith)
  · refine ⟨fun _ => ?_, .inl (by linarith)⟩
    rcases le_or_gt q (F.mag n) with hq' | hq'
    · rw [abs_of_neg (sub_neg.mpr hunder), abs_of_nonpos (sub_nonpos.mpr hq'), neg_sub,
        neg_sub] at hnear
      exact (h.below hn).mono hnear le_rfl
    · have hreach := le_abs p hpos.ne'
      rw [abs_of_pos hpos] at hreach
      obtain ⟨j, rfl⟩ := hq.exists_mul_unit (v := F.mag n)
        (by rw [abs_of_pos (by linarith)]; linarith)
      have hside := hsep.within (k := k) (j := j) (by exact_mod_cast hunder) hq'.le
        (by exact_mod_cast hnext) h.above
      exact_mod_cast hside

theorem isNearest_format (hn : n ≠ 0) (hsep : F.Separated p n) {q : ℚ} (hq : Short p q) {neg : Bool}
    (h : F.IsNearest q neg n) : F.IsNearest (format p (F.signed neg n)).value neg n := by
  rw [F.isNearest_iff hn] at h ⊢
  obtain ⟨hlt, hsign, hreads⟩ := h
  have hsign' := sign_value_format (F := F) (p := p) neg hn
  have hnear := abs_value_format_sub_le (F.signed_ne_zero neg hn) hq
  rw [F.abs_sub_signed hsign, F.abs_sub_signed hsign'] at hnear
  exact ⟨hlt, hsign', reads_format neg hn hsep (Short.abs hq) hnear hreads⟩

/-! ## Single precision and seven digits -/

/-- The exponent of the last of seven digits of `2 ^ (e - 127)`. -/
def lastExpTwo (e : ℕ) : ℤ := ((e : ℤ) - 127) * 30103 / 100000 - 6

/-- The numerator of `2 ^ (e - 127)` in units of the seventh digit. -/
def unitsNum (e : ℕ) : ℕ := 2 ^ (e - 127) * 10 ^ (-lastExpTwo e).toNat

def unitsDen (e : ℕ) : ℕ := 2 ^ (127 - e) * 10 ^ (lastExpTwo e).toNat

/-- The powers of two of the format: the seven digits are where they are expected, and a lower
neighbour that is not farther away than one inside the interval is itself inside. -/
theorem single_powers : ∀ e < 255, 10 ^ 6 * unitsDen e ≤ unitsNum e ∧
    unitsNum e < 10 ^ 7 * unitsDen e ∧
    (2 * (unitsNum e % unitsDen e) ≤ unitsDen e →
      (unitsDen e - unitsNum e % unitsDen e) * 2 ^ 24 ≤ unitsNum e →
      unitsNum e % unitsDen e * 2 ^ 25 ≤ unitsNum e) := by
  decide +kernel

theorem zpow_eq_div {b : ℚ} (hb : b ≠ 0) (z : ℤ) : b ^ z = b ^ z.toNat / b ^ (-z).toNat := by
  rw [eq_div_iff (pow_ne_zero _ hb), ← zpow_natCast, ← zpow_natCast, ← zpow_add₀ hb]
  congr 1
  omega

/-- A power of two in units of its seventh digit. -/
theorem two_zpow_eq_units {e : ℕ} :
    (2 : ℚ) ^ ((e : ℤ) - 127) = unitsNum e / unitsDen e * 10 ^ lastExpTwo e := by
  have hpos : ((e : ℤ) - 127).toNat = e - 127 := by omega
  have hneg : (-((e : ℤ) - 127)).toNat = 127 - e := by omega
  rw [zpow_eq_div (by norm_num), hpos, hneg, zpow_eq_div (by norm_num : (10 : ℚ) ≠ 0)
    (lastExpTwo e),
    unitsNum, unitsDen]
  push_cast
  field_simp

theorem unitsDen_pos (e : ℕ) : 0 < unitsDen e := by
  unfold unitsDen
  positivity

theorem unit_two_zpow {e : ℕ} (he : e < 255) :
    unit 6 ((2 : ℚ) ^ ((e : ℤ) - 127)) = 10 ^ lastExpTwo e := by
  obtain ⟨hlo, hhi, -⟩ := single_powers e he
  have hden : (0 : ℚ) < unitsDen e := by exact_mod_cast unitsDen_pos e
  have hunit : (0 : ℚ) < 10 ^ lastExpTwo e := by positivity
  have hlo' : (10 : ℚ) ^ 6 ≤ unitsNum e / unitsDen e := by
    rw [le_div_iff₀ hden]
    exact_mod_cast hlo
  have hhi' : (unitsNum e : ℚ) / unitsDen e < 10 ^ 7 := by
    rw [div_lt_iff₀ hden]
    exact_mod_cast hhi
  have hlower : (10 : ℚ) ^ (lastExpTwo e + 6) ≤ 2 ^ ((e : ℤ) - 127) := by
    rw [two_zpow_eq_units, zpow_add₀ (by norm_num), mul_comm]
    exact mul_le_mul_of_nonneg_right hlo' hunit.le
  have hupper : (2 : ℚ) ^ ((e : ℤ) - 127) < 10 ^ (lastExpTwo e + 7) := by
    rw [two_zpow_eq_units, zpow_add₀ (by norm_num), mul_comm (10 ^ lastExpTwo e : ℚ)]
    exact mul_lt_mul_of_pos_right hhi' hunit
  have hpos : (0 : ℚ) < 2 ^ ((e : ℤ) - 127) := by positivity
  have hle := (Int.zpow_le_iff_le_log (b := 10) (by norm_num) hpos).mp (by exact_mod_cast hlower)
  have hlt := (Int.lt_zpow_iff_log_lt (b := 10) (by norm_num) hpos).mp (by exact_mod_cast hupper)
  rw [unit, lastExp, abs_of_pos hpos]
  congr 1
  push_cast
  omega

theorem mag_single {e : ℕ} (hmod : n % 2 ^ 23 = 0) (he : n / 2 ^ 23 = e) (hone : 2 ≤ e) :
    single.mag n = 2 ^ ((e : ℤ) - 127) := by
  obtain ⟨j, rfl⟩ := Nat.exists_eq_add_of_le hone
  have hgap : single.gap n = 2 ^ (j + 1) * 2 ^ (-149 : ℤ) := by
    unfold gap
    rw [show n / 2 ^ single.mantissa - 1 = j + 1 by simp only [single]; omega]
    rfl
  rw [mag_eq_mul_gap hmod (he ▸ hone), hgap, ← zpow_natCast, ← zpow_natCast,
    ← zpow_add₀ (by norm_num), ← zpow_add₀ (by norm_num)]
  congr 1
  simp only [single]
  push_cast
  ring

/-- The check of `single_powers` for the digits `k` of a power of two. -/
theorem single_check {e : ℕ} (he : e < 255) {k : ℤ} (hbelow : k * unitsDen e < unitsNum e)
    (hnear : 2 * unitsNum e ≤ (2 * k + 1) * unitsDen e)
    (hupper : ((k + 1) * unitsDen e - unitsNum e) * 2 ^ 24 ≤ unitsNum e) :
    (unitsNum e - k * unitsDen e) * 2 ^ 25 ≤ unitsNum e := by
  obtain ⟨hlo, -, hcheck⟩ := single_powers e he
  have hden := unitsDen_pos e
  generalize unitsNum e = a at *
  generalize unitsDen e = b at *
  have hk : 0 ≤ k := by
    by_contra hneg
    have hle : (2 * k + 1) * b ≤ 0 := mul_nonpos_of_nonpos_of_nonneg (by omega) (by positivity)
    omega
  obtain ⟨m, rfl⟩ := Int.eq_ofNat_of_zero_le hk
  obtain ⟨r, rfl⟩ := Nat.exists_eq_add_of_le (by exact_mod_cast hbelow.le : m * b ≤ a)
  have hhalf : 2 * r ≤ b := by
    push_cast at hnear
    have : (2 * (r : ℤ)) ≤ b := by linarith
    exact_mod_cast this
  have hmod : (m * b + r) % b = r := by
    rw [Nat.add_comm, Nat.add_mul_mod_self_right, Nat.mod_eq_of_lt (by omega)]
  rw [hmod] at hcheck
  have hres := hcheck hhalf (by
    push_cast at hupper
    have : ((b : ℤ) - r) * 2 ^ 24 ≤ m * b + r := by linarith
    zify [show r ≤ b by omega]
    exact this)
  zify at hres
  push_cast
  linarith

/-- The exponents of single precision are few enough to be checked one by one. -/
theorem separated_single (hn : n ≠ 0) (hfin : n < single.infinity) : single.Separated 6 n := by
  rcases single.gap_pred_cases hn with heq | ⟨hmod, hdiv, hgap⟩
  · exact separated_of_gap_eq heq
  · intro k hk hle hwithin
    have hmag : single.mag n = 2 ^ 23 * single.gap n := mag_eq_mul_gap hmod hdiv
    have hstep : single.gap n = single.mag n / 2 ^ 23 := by
      rw [hmag]
      ring
    have heven : n % 2 ^ 23 = 0 := hmod
    obtain ⟨e, he⟩ : ∃ e, n / 2 ^ 23 = e := ⟨_, rfl⟩
    have hlt : e < 255 := by
      simp only [infinity, single] at hfin
      omega
    have hpow := mag_single heven he (he ▸ hdiv)
    rw [hstep] at hwithin hgap
    have hden : (0 : ℚ) < unitsDen e := by exact_mod_cast unitsDen_pos e
    have hupos := unit_pos 6 (single.mag n)
    have hunits : single.mag n * unitsDen e = unitsNum e * unit 6 (single.mag n) := by
      rw [hpow, unit_two_zpow hlt, two_zpow_eq_units]
      field_simp
    -- the three inequalities in units of the seventh digit
    have hbelow : (k : ℚ) * unitsDen e < unitsNum e := by
      have h := mul_lt_mul_of_pos_right hk hden
      exact lt_of_mul_lt_mul_right (by linarith) hupos.le
    have hnear : 2 * (unitsNum e : ℚ) ≤ (2 * k + 1) * unitsDen e := by
      have h := mul_le_mul_of_nonneg_right hle hden.le
      exact le_of_mul_le_mul_right (by linarith) hupos
    have hupper : ((k + 1) * unitsDen e - unitsNum e) * 2 ^ 24 ≤ (unitsNum e : ℚ) := by
      have h := mul_le_mul_of_nonneg_right hwithin.le hden.le
      exact le_of_mul_le_mul_right (by linarith) hupos
    have hres := single_check hlt (k := k) (by exact_mod_cast hbelow) (by exact_mod_cast hnear)
      (by exact_mod_cast hupper)
    have hres' : (unitsNum e - k * unitsDen e) * 2 ^ 25 ≤ (unitsNum e : ℚ) := by exact_mod_cast hres
    have hclose : single.mag n - k * unit 6 (single.mag n) ≤ single.gap (n - 1) / 2 := by
      have h := mul_le_mul_of_nonneg_right hres' hupos.le
      refine le_of_mul_le_mul_right ?_ hden
      rw [hgap]
      linarith
    rcases hclose.lt_or_eq with h | h
    · exact .inl h
    · exact .inr ⟨h, by omega⟩

end Llxvm.FloatFormat
