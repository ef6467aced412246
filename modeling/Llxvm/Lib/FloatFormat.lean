import Mathlib.Algebra.Order.Field.Power
import Mathlib.Algebra.Order.Ring.Abs
import Mathlib.Data.Rat.Floor
import Mathlib.Tactic.Linarith
import Mathlib.Tactic.Positivity
import Mathlib.Tactic.Ring

/-!
# Binary floating point formats

The values of an interchange format as exact rationals, counted in the order of their bit
patterns, and the value that is nearest to a rational.
-/

namespace Llxvm

/-- The stored bits of the significand, and the bits of the exponent. -/
structure FloatFormat where
  mantissa : ℕ
  exponent : ℕ

namespace FloatFormat

def single : FloatFormat := ⟨23, 8⟩

def double : FloatFormat := ⟨52, 11⟩

variable (F : FloatFormat)

/-- The exponent of the least positive value. -/
def emin : ℤ := 2 - 2 ^ (F.exponent - 1) - F.mantissa

/-- The pattern `n` as a multiple of the least positive value. -/
def scaled (n : ℕ) : ℕ :=
  if n / 2 ^ F.mantissa = 0 then n
  else (2 ^ F.mantissa + n % 2 ^ F.mantissa) * 2 ^ (n / 2 ^ F.mantissa - 1)

/-- The value of a pattern without its sign. -/
def mag (n : ℕ) : ℚ := F.scaled n * 2 ^ F.emin

/-- The pattern of the infinity; as a value it is the next power of two. -/
def infinity : ℕ := (2 ^ F.exponent - 1) * 2 ^ F.mantissa

def signed (neg : Bool) (n : ℕ) : ℚ := if neg then -F.mag n else F.mag n

/-- Of all values of the format this one is nearest to `q`; of two, the one with an even
significand is taken, and the infinity counts as a value. -/
def IsNearest (q : ℚ) (neg : Bool) (n : ℕ) : Prop :=
  n < F.infinity ∧ ∀ (neg' : Bool) (k : ℕ), k ≤ F.infinity → F.signed neg' k ≠ F.signed neg n →
    |q - F.signed neg n| < |q - F.signed neg' k| ∨
      |q - F.signed neg n| = |q - F.signed neg' k| ∧ n % 2 = 0

/-! ## The distances of the values -/

/-- The distance to the next value. -/
def gap (n : ℕ) : ℚ := 2 ^ (n / 2 ^ F.mantissa - 1) * 2 ^ F.emin

theorem scaled_succ (n : ℕ) : F.scaled (n + 1) = F.scaled n + 2 ^ (n / 2 ^ F.mantissa - 1) := by
  have hpos : 0 < 2 ^ F.mantissa := by positivity
  unfold scaled
  generalize 2 ^ F.mantissa = b at *
  have hsplit := Nat.div_add_mod n b
  have hlt := Nat.mod_lt n hpos
  rcases Nat.lt_or_ge (n % b + 1) b with hnext | hnext
  · have hdiv : (n + 1) / b = n / b := by
      rw [← hsplit, Nat.add_assoc, Nat.mul_add_div hpos, Nat.div_eq_of_lt hnext,
        Nat.mul_add_div hpos, Nat.div_eq_of_lt hlt]
    have hmod : (n + 1) % b = n % b + 1 := by
      conv_lhs => rw [← hsplit, Nat.add_assoc, Nat.mul_add_mod, Nat.mod_eq_of_lt hnext]
    rw [hdiv, hmod]
    split_ifs with h
    · rw [h]
      rfl
    · ring
  · -- the significand is all ones, and the exponent grows
    have hlast : n % b + 1 = b := by omega
    have hdiv : (n + 1) / b = n / b + 1 := by
      rw [← hsplit, Nat.add_assoc, hlast, Nat.mul_add_div hpos, Nat.div_self hpos,
        Nat.mul_add_div hpos, Nat.div_eq_of_lt hlt, Nat.add_zero]
    have hmod : (n + 1) % b = 0 := by
      conv_lhs => rw [← hsplit, Nat.add_assoc, hlast, Nat.mul_add_mod, Nat.mod_self]
    rw [hdiv, hmod, if_neg (Nat.succ_ne_zero _), Nat.add_sub_cancel]
    split_ifs with h
    · rw [h, Nat.mul_zero, Nat.zero_add] at hsplit
      rw [h]
      omega
    · obtain ⟨j, hj⟩ := Nat.exists_eq_succ_of_ne_zero h
      have hones : b + n % b + 1 = 2 * b := by omega
      calc (b + 0) * 2 ^ (n / b) = (b + n % b + 1) * 2 ^ j := by
            rw [hones, hj, Nat.pow_succ]
            ring
        _ = (b + n % b) * 2 ^ (n / b - 1) + 2 ^ (n / b - 1) := by
            rw [hj, Nat.succ_sub_one]
            ring

theorem gap_pos (n : ℕ) : 0 < F.gap n := by
  unfold gap
  positivity

theorem mag_succ (n : ℕ) : F.mag (n + 1) = F.mag n + F.gap n := by
  rw [mag, mag, gap, scaled_succ]
  push_cast
  ring

theorem strictMono_mag : StrictMono F.mag :=
  strictMono_nat_of_lt_succ fun n => by
    rw [mag_succ]
    linarith [F.gap_pos n]

@[simp] theorem mag_zero : F.mag 0 = 0 := by simp [mag, scaled]

theorem mag_nonneg (n : ℕ) : 0 ≤ F.mag n := by
  rw [← F.mag_zero]
  exact F.strictMono_mag.monotone (Nat.zero_le n)

theorem mag_pos {n : ℕ} (hn : n ≠ 0) : 0 < F.mag n := by
  rw [← F.mag_zero]
  exact F.strictMono_mag (Nat.pos_of_ne_zero hn)

theorem gap_mono : Monotone F.gap := by
  intro m n hmn
  unfold gap
  have hexp : m / 2 ^ F.mantissa - 1 ≤ n / 2 ^ F.mantissa - 1 :=
    Nat.sub_le_sub_right (Nat.div_le_div_right hmn) 1
  exact mul_le_mul_of_nonneg_right (pow_le_pow_right₀ (by norm_num) hexp) (by positivity)

/-- The distances on both sides differ only at the least significand of a normal exponent. -/
theorem gap_pred_cases {n : ℕ} (hn : n ≠ 0) : F.gap (n - 1) = F.gap n ∨
    n % 2 ^ F.mantissa = 0 ∧ 2 ≤ n / 2 ^ F.mantissa ∧ F.gap (n - 1) = F.gap n / 2 := by
  obtain ⟨m, rfl⟩ := Nat.exists_eq_succ_of_ne_zero hn
  have hpos : 0 < 2 ^ F.mantissa := by positivity
  simp only [Nat.succ_eq_add_one, Nat.add_sub_cancel, gap]
  by_cases hmod : (m + 1) % 2 ^ F.mantissa = 0
  · have hdiv : (m + 1) / 2 ^ F.mantissa = m / 2 ^ F.mantissa + 1 :=
      Nat.succ_div_of_mod_eq_zero hmod
    by_cases hzero : m / 2 ^ F.mantissa = 0
    · left
      rw [hdiv, hzero]
    · right
      obtain ⟨j, hj⟩ := Nat.exists_eq_succ_of_ne_zero hzero
      refine ⟨hmod, by omega, ?_⟩
      rw [hdiv, hj, Nat.add_sub_cancel, Nat.succ_sub_one, Nat.succ_eq_add_one, pow_succ]
      ring
  · left
    rw [Nat.succ_div_of_mod_ne_zero hmod]

/-! ## Rounding intervals -/

/-- A distance within the given radius of the pattern `n`; the bound belongs to the interval
of an even significand. -/
def Within (n : ℕ) (d r : ℚ) : Prop := d < r ∨ d = r ∧ n % 2 = 0

theorem Within.mono {n : ℕ} {d d' r r' : ℚ} (h : Within n d r) (hd : d' ≤ d) (hr : r ≤ r') :
    Within n d' r' := by
  rcases h with h | ⟨h, heven⟩
  · exact .inl (by linarith)
  · rcases (by linarith : d' ≤ r').lt_or_eq with hlt | heq
    · exact .inl hlt
    · exact .inr ⟨heq, heven⟩

/-- The interval of the rationals that are read as the pattern `n`. -/
structure Reads (q : ℚ) (n : ℕ) : Prop where
  below : n ≠ 0 → Within n (F.mag n - q) (F.gap (n - 1) / 2)
  above : Within n (q - F.mag n) (F.gap n / 2)

/-- Two values and a rational that is not nearer to the second. -/
theorem within_iff_of_lt {n : ℕ} {q a b : ℚ} (hab : a < b) :
    |q - a| < |q - b| ∨ |q - a| = |q - b| ∧ n % 2 = 0 ↔ Within n (q - a) ((b - a) / 2) := by
  unfold Within
  have hlt : |q - a| < |q - b| ↔ q - a < (b - a) / 2 := by
    rw [← sq_lt_sq]
    constructor <;> intro h <;> nlinarith
  have heq : |q - a| = |q - b| ↔ q - a = (b - a) / 2 := by
    rw [← sq_eq_sq_iff_abs_eq_abs]
    constructor
    · intro h
      have hfactor : (b - a) * (2 * q - a - b) = 0 := by linarith
      rcases mul_eq_zero.mp hfactor with h | h <;> linarith
    · intro h
      have hq : q = (a + b) / 2 := by linarith
      rw [hq]
      ring
  rw [hlt, heq]

theorem within_iff_of_gt {n : ℕ} {q a b : ℚ} (hab : b < a) :
    |q - a| < |q - b| ∨ |q - a| = |q - b| ∧ n % 2 = 0 ↔ Within n (a - q) ((a - b) / 2) := by
  have h := within_iff_of_lt (n := n) (q := -q) (neg_lt_neg hab)
  simp only [neg_sub_neg] at h
  rwa [abs_sub_comm q a, abs_sub_comm q b]

/-- The next pattern on each side decides. -/
theorem reads_iff {q : ℚ} {n : ℕ} (hn : n < F.infinity) :
    F.Reads q n ↔ ∀ k ≤ F.infinity, k ≠ n →
      |q - F.mag n| < |q - F.mag k| ∨ |q - F.mag n| = |q - F.mag k| ∧ n % 2 = 0 := by
  have hup : F.mag (n + 1) - F.mag n = F.gap n := by
    rw [mag_succ]
    ring
  have hdown : n ≠ 0 → F.mag n - F.mag (n - 1) = F.gap (n - 1) := by
    intro h
    obtain ⟨m, rfl⟩ := Nat.exists_eq_succ_of_ne_zero h
    rw [Nat.succ_eq_add_one, Nat.add_sub_cancel, mag_succ]
    ring
  constructor
  · rintro ⟨hbelow, habove⟩ k - hne
    rcases Nat.lt_or_gt_of_ne hne with hlt | hgt
    · rw [within_iff_of_gt (F.strictMono_mag hlt)]
      have hle := F.strictMono_mag.monotone (by omega : k ≤ n - 1)
      have hd := hdown (by omega)
      exact (hbelow (by omega)).mono le_rfl (by linarith)
    · rw [within_iff_of_lt (F.strictMono_mag hgt)]
      have hle := F.strictMono_mag.monotone (show n + 1 ≤ k from hgt)
      exact habove.mono le_rfl (by linarith)
  · intro h
    constructor
    · intro hzero
      have hnear := h (n - 1) (by omega) (by omega)
      rwa [within_iff_of_gt (F.strictMono_mag (by omega)), hdown hzero] at hnear
    · have hnear := h (n + 1) hn (by omega)
      rwa [within_iff_of_lt (F.strictMono_mag (by omega)), hup] at hnear

/-! ## Signs -/

theorem abs_sub_signed {neg : Bool} {q : ℚ} (h : if neg then q < 0 else 0 < q) (k : ℕ) :
    |q - F.signed neg k| = |(|q|) - F.mag k| := by
  cases neg <;> simp only [signed, if_true, if_false, Bool.false_eq_true] at h ⊢
  · rw [abs_of_pos h]
  · rw [abs_of_neg h, ← abs_neg (q - -F.mag k)]
    congr 1
    ring

@[simp] theorem abs_signed (neg : Bool) (n : ℕ) : |F.signed neg n| = F.mag n := by
  have h := F.mag_nonneg n
  cases neg <;> simp [signed, abs_of_nonneg h]

theorem signed_ne_zero (neg : Bool) {n : ℕ} (hn : n ≠ 0) : F.signed neg n ≠ 0 := by
  rw [← abs_ne_zero, abs_signed]
  exact (F.mag_pos hn).ne'

theorem sign_of_isNearest {q : ℚ} {neg : Bool} {n : ℕ} (hn : n ≠ 0) (h : F.IsNearest q neg n) :
    if neg then q < 0 else 0 < q := by
  obtain ⟨hlt, hnear⟩ := h
  have hpos := F.mag_pos hn
  have hother := hnear (!neg) n hlt.le (by cases neg <;> simp [signed] <;> linarith)
  have hzero := hnear false 0 (Nat.zero_le _) (by
    simpa [signed] using (F.signed_ne_zero neg hn).symm)
  have hne : q ≠ 0 := by
    rintro rfl
    simp only [zero_sub, abs_neg, abs_signed, mag_zero] at hzero
    rcases hzero with h | h <;> linarith [h]
  have hle : |q - F.signed neg n| ≤ |q - F.signed (!neg) n| := by
    rcases hother with h | h <;> linarith [h]
  rw [← sq_le_sq] at hle
  cases neg <;> simp only [signed, if_true, if_false, Bool.false_eq_true, Bool.not_false,
    Bool.not_true] at hle ⊢
  · have : 0 ≤ q := by nlinarith
    exact lt_of_le_of_ne this hne.symm
  · have : q ≤ 0 := by nlinarith
    exact lt_of_le_of_ne this hne

theorem isNearest_iff {q : ℚ} {neg : Bool} {n : ℕ} (hn : n ≠ 0) :
    F.IsNearest q neg n ↔ n < F.infinity ∧ (if neg then q < 0 else 0 < q) ∧ F.Reads |q| n := by
  constructor
  · intro h
    have hsign := F.sign_of_isNearest hn h
    refine ⟨h.1, hsign, (F.reads_iff h.1).mpr fun k hk hne => ?_⟩
    have hdiff : F.signed neg k ≠ F.signed neg n := by
      intro heq
      have habs := congrArg abs heq
      rw [abs_signed, abs_signed] at habs
      exact hne (F.strictMono_mag.injective habs)
    have hnear := h.2 neg k hk hdiff
    rwa [F.abs_sub_signed hsign, F.abs_sub_signed hsign] at hnear
  · rintro ⟨hlt, hsign, hreads⟩
    refine ⟨hlt, fun neg' k hk hdiff => ?_⟩
    rw [F.abs_sub_signed hsign]
    by_cases hkn : k = n
    · -- the same pattern with the other sign is on the other side of zero
      subst hkn
      left
      have hpos := F.mag_pos hn
      rw [← F.abs_sub_signed hsign, ← sq_lt_sq]
      cases neg <;> cases neg' <;>
        simp only [signed, if_true, if_false, Bool.false_eq_true, ne_eq, not_true] at hsign hdiff ⊢
      · nlinarith
      · nlinarith
    · have hnear := (F.reads_iff hlt).mp hreads k hk hkn
      have hle : |(|q|) - F.mag k| ≤ |q - F.signed neg' k| := by
        rw [← F.abs_signed neg' k]
        exact abs_abs_sub_abs_le_abs_sub q _
      rcases hnear with h | ⟨h, heven⟩
      · exact .inl (h.trans_le hle)
      · rcases hle.lt_or_eq with hlt' | heq
        · exact .inl (h ▸ hlt')
        · exact .inr ⟨h.trans heq, heven⟩

theorem isNearest_self (neg : Bool) {n : ℕ} (hn : n < F.infinity) :
    F.IsNearest (F.signed neg n) neg n := by
  refine ⟨hn, fun neg' k _ hdiff => .inl ?_⟩
  rw [sub_self, abs_zero]
  exact abs_pos.mpr (sub_ne_zero.mpr hdiff.symm)

end FloatFormat

end Llxvm
