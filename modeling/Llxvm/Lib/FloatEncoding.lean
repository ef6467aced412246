import Llxvm.Lib.BinaryRounding
import Llxvm.Lib.FloatFormat
import Mathlib.Algebra.Order.Floor.Semifield

/-!
# Words of an interchange format

The bit patterns of a format together with their sign bit, the pattern that a rational is rounded
to, and the numbers that need no rounding.
-/

namespace Llxvm.FloatFormat

variable (F : FloatFormat)

/-- A word without its sign bit. -/
def pattern {w : ℕ} (x : BitVec w) : ℕ := x.toNat % 2 ^ (w - 1)

/-- The number a word stands for. -/
def ofBits {w : ℕ} (x : BitVec w) : ℚ := F.signed x.msb (pattern x)

def Finite {w : ℕ} (x : BitVec w) : Prop := pattern x < F.infinity

/-- Neither zero nor subnormal. -/
def Normal {w : ℕ} (x : BitVec w) : Prop := 2 ^ F.mantissa ≤ pattern x

instance {w : ℕ} (x : BitVec w) : Decidable (F.Finite x) := inferInstanceAs (Decidable (_ < _))
instance {w : ℕ} (x : BitVec w) : Decidable (F.Normal x) := inferInstanceAs (Decidable (_ ≤ _))

/-- How many bits do not fit into the significand of `s`, a multiple of the least positive
value. -/
def excess (s : ℚ) : ℕ := Nat.log 2 ⌊s⌋₊ - F.mantissa

/-- The pattern nearest to a multiple of the least positive value, one with an even significand
if there are two.  A carry out of the significand goes into the exponent. -/
def roundScaled (s : ℚ) : ℕ :=
  F.excess s * 2 ^ F.mantissa + (roundHalfEven (s / 2 ^ F.excess s)).toNat

/-- The pattern that the magnitude of `q` is rounded to. -/
def nearest (q : ℚ) : ℕ := min F.infinity (F.roundScaled (|q| / 2 ^ F.emin))

def word (w : ℕ) (neg : Bool) (n : ℕ) : BitVec w :=
  BitVec.ofNat w ((if neg then 2 ^ (w - 1) else 0) + n)

/-- The word that `q` is rounded to. -/
def toBits (w : ℕ) (q : ℚ) : BitVec w := word w (q < 0) (F.nearest q)

/-! ## Fields -/

theorem mag_normal {c i : ℕ} (hc : c ≠ 0) (hi : i < 2 ^ F.mantissa) :
    F.mag (c * 2 ^ F.mantissa + i) = (2 ^ F.mantissa + i) * 2 ^ ((c : ℤ) - 1 + F.emin) := by
  have hdiv : (c * 2 ^ F.mantissa + i) / 2 ^ F.mantissa = c := by
    rw [Nat.mul_comm, Nat.mul_add_div (Nat.two_pow_pos _), Nat.div_eq_of_lt hi, Nat.add_zero]
  have hmod : (c * 2 ^ F.mantissa + i) % 2 ^ F.mantissa = i := by
    rw [Nat.mul_comm, Nat.mul_add_mod, Nat.mod_eq_of_lt hi]
  have hexp : (2 : ℚ) ^ ((c : ℤ) - 1 + F.emin) = 2 ^ (c - 1) * 2 ^ F.emin := by
    rw [zpow_add₀ (by norm_num), ← zpow_natCast, Nat.cast_sub (Nat.pos_of_ne_zero hc)]
    rfl
  rw [mag, scaled, hdiv, hmod, if_neg hc, hexp]
  push_cast
  ring

theorem mag_subnormal {i : ℕ} (hi : i < 2 ^ F.mantissa) : F.mag i = i * 2 ^ F.emin := by
  rw [mag, scaled, if_pos (Nat.div_eq_of_lt hi)]

/-- A significand with its leading bit adds one to the exponent field. -/
theorem div_significand {j : ℕ} (hj : j < 2 ^ F.mantissa) (c : ℕ) :
    (c * 2 ^ F.mantissa + (2 ^ F.mantissa + j)) / 2 ^ F.mantissa = c + 1 ∧
      (c * 2 ^ F.mantissa + (2 ^ F.mantissa + j)) % 2 ^ F.mantissa = j := by
  have hform : c * 2 ^ F.mantissa + (2 ^ F.mantissa + j) = 2 ^ F.mantissa * (c + 1) + j := by
    ring
  rw [hform, Nat.mul_add_div (Nat.two_pow_pos _), Nat.div_eq_of_lt hj, Nat.add_zero,
    Nat.mul_add_mod, Nat.mod_eq_of_lt hj]
  exact ⟨rfl, rfl⟩

theorem scaled_significand {j : ℕ} (hj : j < 2 ^ F.mantissa) (c : ℕ) :
    F.scaled (c * 2 ^ F.mantissa + (2 ^ F.mantissa + j)) = (2 ^ F.mantissa + j) * 2 ^ c := by
  obtain ⟨hdiv, hmod⟩ := F.div_significand hj c
  rw [scaled, hdiv, hmod, if_neg (Nat.succ_ne_zero c), Nat.add_sub_cancel]

/-- The infinity follows the greatest exponent. -/
theorem mag_infinity (he : F.exponent ≠ 0) : F.mag F.infinity = 2 ^ 2 ^ (F.exponent - 1) := by
  have hdouble : 2 ^ F.exponent = 2 * 2 ^ (F.exponent - 1) := by
    rw [← pow_succ', Nat.sub_add_cancel (Nat.pos_of_ne_zero he)]
  have hpos := Nat.two_pow_pos (F.exponent - 1)
  have hmag := F.mag_normal (c := 2 ^ F.exponent - 1) (i := 0) (by omega) (Nat.two_pow_pos _)
  have hexp : ((2 ^ F.exponent - 1 : ℕ) : ℤ) - 1 + F.emin =
      (2 ^ (F.exponent - 1) : ℕ) - (F.mantissa : ℕ) := by
    rw [hdouble, emin]
    push_cast [Nat.cast_sub (by omega : 1 ≤ 2 * 2 ^ (F.exponent - 1))]
    ring
  rw [Nat.add_zero, hexp, zpow_sub₀ (by norm_num), zpow_natCast, zpow_natCast] at hmag
  rw [infinity, hmag]
  field_simp
  simp

/-! ## Words -/

section word

variable {w n : ℕ} (neg : Bool)

theorem toNat_word (hw : 0 < w) (hn : n < 2 ^ (w - 1)) :
    (word w neg n).toNat = (if neg then 2 ^ (w - 1) else 0) + n := by
  have hpow : 2 ^ w = 2 * 2 ^ (w - 1) := by rw [← pow_succ', Nat.sub_add_cancel hw]
  rw [word, BitVec.toNat_ofNat, Nat.mod_eq_of_lt]
  split_ifs <;> omega

@[simp] theorem pattern_word (hw : 0 < w) (hn : n < 2 ^ (w - 1)) :
    pattern (word w neg n) = n := by
  rw [pattern, toNat_word neg hw hn]
  cases neg
  · simp [Nat.mod_eq_of_lt hn]
  · simp [Nat.mod_eq_of_lt hn]

@[simp] theorem msb_word (hw : 0 < w) (hn : n < 2 ^ (w - 1)) : (word w neg n).msb = neg := by
  rw [BitVec.msb_eq_decide, toNat_word neg hw hn]
  cases neg
  · simp [hn]
  · simp

theorem ofBits_word (hw : 0 < w) (hn : n < 2 ^ (w - 1)) :
    F.ofBits (word w neg n) = F.signed neg n := by
  rw [ofBits, msb_word neg hw hn, pattern_word neg hw hn]

theorem ofBits_eq_zero_iff (x : BitVec w) : F.ofBits x = 0 ↔ pattern x = 0 := by
  constructor
  · intro h
    by_contra hne
    exact F.signed_ne_zero x.msb hne h
  · intro h
    rw [ofBits, h, signed, mag_zero]
    simp

@[simp] theorem abs_ofBits (x : BitVec w) : |F.ofBits x| = F.mag (pattern x) :=
  F.abs_signed x.msb (pattern x)

end word

/-! ## Rounding -/

theorem abs_roundHalfEven_le_half (q : ℚ) : |(roundHalfEven q : ℚ) - q| ≤ 1 / 2 := by
  have hlo := Int.floor_le q
  have hhi := Int.lt_floor_add_one q
  unfold roundHalfEven
  split_ifs with h
  · have hhalf : 2 * (q - ⌊q⌋) ≤ 1 := by rcases h with h | h <;> linarith [h]
    rw [abs_sub_comm, abs_of_nonneg (by linarith)]
    linarith
  · have hhalf : 1 ≤ 2 * (q - ⌊q⌋) := by
      by_contra hlt
      exact h (.inl (not_le.mp hlt))
    push_cast
    rw [abs_of_nonneg (by linarith)]
    linarith

/-- Where the values are normal, the rounded one is not further away than half of the last bit
of its significand. -/
theorem abs_sub_roundScaled_le {s : ℚ} (hs : 2 ^ F.mantissa ≤ s) :
    0 < F.roundScaled s / 2 ^ F.mantissa ∧
      |s - F.scaled (F.roundScaled s)| ≤ 2 ^ (F.roundScaled s / 2 ^ F.mantissa - 1) / 2 := by
  have hpos : (0 : ℚ) < 2 ^ F.mantissa := by positivity
  have hfloor : 2 ^ F.mantissa ≤ ⌊s⌋₊ := by
    apply Nat.le_floor
    exact_mod_cast hs
  have hlog : F.mantissa ≤ Nat.log 2 ⌊s⌋₊ := Nat.le_log_of_pow_le (by decide) hfloor
  obtain ⟨c, hc⟩ := Nat.exists_eq_add_of_le hlog
  have hexcess : F.excess s = c := by rw [excess, hc, Nat.add_sub_cancel_left]
  have hlo : (2 : ℚ) ^ F.mantissa ≤ s / 2 ^ c := by
    have hne : ⌊s⌋₊ ≠ 0 := Nat.pos_iff_ne_zero.mp ((Nat.two_pow_pos _).trans_le hfloor)
    have hpow := Nat.pow_log_le_self 2 hne
    rw [hc] at hpow
    rw [le_div_iff₀ (by positivity), ← pow_add]
    exact (by exact_mod_cast hpow : (2 : ℚ) ^ (F.mantissa + c) ≤ ⌊s⌋₊).trans
      (Nat.floor_le (hpos.le.trans hs))
  have hhi : s / 2 ^ c < 2 ^ (F.mantissa + 1) := by
    have hpow := Nat.lt_pow_succ_log_self (by decide : 1 < 2) ⌊s⌋₊
    rw [hc] at hpow
    rw [div_lt_iff₀ (by positivity), ← pow_add,
      show F.mantissa + 1 + c = F.mantissa + c + 1 by ring]
    exact (Nat.floor_lt (hpos.le.trans hs)).mp hpow |>.trans_eq (by push_cast; rfl)
  have hhalf := abs_le.mp (abs_roundHalfEven_le_half (s / 2 ^ c))
  rw [roundScaled, hexcess]
  generalize roundHalfEven (s / 2 ^ c) = t at *
  have ht : 2 ^ F.mantissa ≤ t := by
    have hlt : ((2 ^ F.mantissa - 1 : ℤ) : ℚ) < t := by
      push_cast
      linarith
    have := Int.cast_lt.mp hlt
    omega
  have ht' : t ≤ 2 ^ (F.mantissa + 1) := by
    have hlt : (t : ℚ) < ((2 ^ (F.mantissa + 1) + 1 : ℤ) : ℚ) := by
      push_cast
      linarith
    have := Int.cast_lt.mp hlt
    omega
  obtain ⟨j, rfl⟩ : ∃ j : ℕ, t = (2 ^ F.mantissa + j : ℕ) := by
    obtain ⟨j, hj⟩ := Int.eq_ofNat_of_zero_le (by omega : 0 ≤ t - 2 ^ F.mantissa)
    exact ⟨j, by push_cast; omega⟩
  have herror : |s - (2 ^ F.mantissa + j : ℕ) * 2 ^ c| ≤ 2 ^ c / 2 := by
    have hform : s - ((2 ^ F.mantissa + j : ℕ) : ℚ) * 2 ^ c =
        (s / 2 ^ c - ((2 ^ F.mantissa + j : ℕ) : ℤ)) * 2 ^ c := by
      rw [sub_mul, div_mul_cancel₀ _ (by positivity)]
      push_cast
      rfl
    rw [hform, abs_mul, abs_of_pos (by positivity : (0 : ℚ) < 2 ^ c), abs_sub_comm]
    calc |((2 ^ F.mantissa + j : ℕ) : ℤ) - s / 2 ^ c| * 2 ^ c ≤ 1 / 2 * 2 ^ c :=
          mul_le_mul_of_nonneg_right (abs_le.mpr hhalf) (by positivity)
      _ = 2 ^ c / 2 := by ring
  rw [Int.toNat_natCast]
  rcases Nat.lt_or_ge j (2 ^ F.mantissa) with hj | hj
  · rw [F.scaled_significand hj, (F.div_significand hj c).1, Nat.add_sub_cancel]
    refine ⟨Nat.succ_pos c, ?_⟩
    push_cast at herror ⊢
    exact herror
  · -- the carry is the significand one of the next exponent
    have hj' : j = 2 ^ F.mantissa := by
      push_cast at ht'
      rw [pow_succ] at ht'
      have : (j : ℤ) ≤ 2 ^ F.mantissa := by omega
      exact Nat.le_antisymm (by exact_mod_cast this) hj
    have hform : c * 2 ^ F.mantissa + (2 ^ F.mantissa + j) =
        (c + 1) * 2 ^ F.mantissa + (2 ^ F.mantissa + 0) := by
      rw [hj']
      ring
    rw [hform, F.scaled_significand (Nat.two_pow_pos _),
      (F.div_significand (Nat.two_pow_pos _) (c + 1)).1, Nat.add_sub_cancel]
    refine ⟨Nat.succ_pos _, ?_⟩
    have hsig : ((2 ^ F.mantissa + j : ℕ) : ℚ) * 2 ^ c =
        ((2 ^ F.mantissa + 0) * 2 ^ (c + 1) : ℕ) := by
      rw [hj']
      push_cast
      ring
    rw [hsig] at herror
    refine herror.trans ?_
    gcongr
    · norm_num
    · exact Nat.le_succ c

/-! ## Numbers that are not rounded -/

/-- A multiple of the least positive value by a number of few bits. -/
def Representable (q : ℚ) : Prop :=
  ∃ i k : ℕ, i < 2 ^ (F.mantissa + 1) ∧ |q| = i * 2 ^ k * 2 ^ F.emin

theorem representable_mag (n : ℕ) : F.Representable (F.mag n) := by
  have hpos := Nat.two_pow_pos F.mantissa
  have hlt := Nat.mod_lt n hpos
  unfold Representable
  rw [abs_of_nonneg (F.mag_nonneg n), mag, scaled, pow_succ]
  split_ifs with h
  · have hn : n < 2 ^ F.mantissa := (Nat.div_eq_zero_iff_lt hpos).mp h
    exact ⟨n, 0, by omega, by simp⟩
  · refine ⟨2 ^ F.mantissa + n % 2 ^ F.mantissa, n / 2 ^ F.mantissa - 1, by omega, ?_⟩
    push_cast
    rfl

theorem representable_ofBits {w : ℕ} (x : BitVec w) : F.Representable (F.ofBits x) := by
  obtain ⟨i, k, hi, hk⟩ := F.representable_mag (pattern x)
  rw [abs_of_nonneg (F.mag_nonneg _), ← abs_ofBits] at hk
  exact ⟨i, k, hi, hk⟩

theorem representable_intCast {k : ℤ} (hemin : F.emin ≤ 0) (hk : |k| < 2 ^ (F.mantissa + 1)) :
    F.Representable k := by
  obtain ⟨j, hj⟩ := Int.eq_ofNat_of_zero_le (neg_nonneg.mpr hemin)
  have hcancel : (2 : ℚ) ^ j * 2 ^ F.emin = 1 := by
    rw [← zpow_natCast, ← zpow_add₀ (by norm_num), ← hj]
    simp
  refine ⟨k.natAbs, j, by zify; exact hk, ?_⟩
  rw [mul_assoc, hcancel, mul_one, Nat.cast_natAbs, Int.cast_abs]

theorem log_mul_two_pow {i : ℕ} (hi : i ≠ 0) (k : ℕ) :
    Nat.log 2 (i * 2 ^ k) = Nat.log 2 i + k := by
  induction k with
  | zero => simp
  | succ k ih =>
      have hne : i * 2 ^ k ≠ 0 := Nat.mul_ne_zero hi (Nat.two_pow_pos k).ne'
      rw [pow_succ, ← mul_assoc, Nat.log_mul_base (by decide) hne, ih, Nat.add_assoc]

/-- The significand fills the pattern, except below the least normal exponent. -/
theorem scaled_roundScaled {i k : ℕ} (hi : i < 2 ^ (F.mantissa + 1)) :
    F.scaled (F.roundScaled ((i : ℚ) * 2 ^ k)) = i * 2 ^ k := by
  have hpos := Nat.two_pow_pos F.mantissa
  rcases Nat.eq_zero_or_pos i with rfl | hipos
  · simp [roundScaled, excess, scaled, roundHalfEven]
  · have hfloor : ⌊(i : ℚ) * 2 ^ k⌋₊ = i * 2 ^ k := by
      exact_mod_cast Nat.floor_natCast (R := ℚ) (i * 2 ^ k)
    have hlog : Nat.log 2 (i * 2 ^ k) = Nat.log 2 i + k := log_mul_two_pow hipos.ne' k
    have hbits : Nat.log 2 i ≤ F.mantissa :=
      Nat.lt_succ_iff.mp (Nat.log_lt_of_lt_pow hipos.ne' hi)
    obtain ⟨t, ht⟩ : ∃ t, k = F.excess ((i : ℚ) * 2 ^ k) + t := by
      refine ⟨k - F.excess ((i : ℚ) * 2 ^ k), ?_⟩
      rw [excess, hfloor, hlog]
      omega
    have hexcess : F.excess ((i : ℚ) * 2 ^ k) = Nat.log 2 i + k - F.mantissa := by
      rw [excess, hfloor, hlog]
    rw [roundScaled]
    generalize F.excess ((i : ℚ) * 2 ^ k) = c at *
    have hround : roundHalfEven ((i : ℚ) * 2 ^ k / 2 ^ c) = (i * 2 ^ t : ℕ) := by
      have hdiv : (i : ℚ) * 2 ^ k / 2 ^ c = ((i * 2 ^ t : ℕ) : ℤ) := by
        rw [ht, pow_add, div_eq_iff (by positivity)]
        push_cast
        ring
      rw [hdiv, roundHalfEven_intCast]
    have hlt : i * 2 ^ t < 2 ^ (F.mantissa + 1) := by
      apply Nat.lt_pow_of_log_lt (by decide)
      rw [log_mul_two_pow hipos.ne']
      omega
    rw [hround, Int.toNat_natCast]
    rcases Nat.eq_zero_or_pos c with rfl | hc
    · -- the exponent field is 0 or 1, with the same distance of the values
      rw [Nat.zero_add] at ht
      rw [Nat.zero_mul, Nat.zero_add, ht]
      clear hround
      generalize i * 2 ^ t = r at *
      rw [scaled]
      rw [pow_succ] at hlt
      split_ifs with h
      · rfl
      · have hone : r / 2 ^ F.mantissa = 1 :=
          Nat.le_antisymm (Nat.lt_succ_iff.mp (Nat.div_lt_of_lt_mul hlt)) (Nat.pos_of_ne_zero h)
        have hsplit := Nat.div_add_mod r (2 ^ F.mantissa)
        rw [hone] at hsplit ⊢
        omega
    · have hge : 2 ^ F.mantissa ≤ i * 2 ^ t := by
        apply Nat.pow_le_of_le_log (by positivity)
        rw [log_mul_two_pow hipos.ne']
        omega
      have hsplit : i * 2 ^ k = i * 2 ^ t * 2 ^ c := by
        rw [ht, pow_add]
        ring
      rw [hsplit]
      generalize i * 2 ^ t = r at *
      obtain ⟨j, rfl⟩ := Nat.exists_eq_add_of_le hge
      have hj : j < 2 ^ F.mantissa := by
        rw [pow_succ] at hlt
        omega
      exact F.scaled_significand hj c

theorem mag_roundScaled {q : ℚ} (h : F.Representable q) :
    F.mag (F.roundScaled (|q| / 2 ^ F.emin)) = |q| := by
  obtain ⟨i, k, hi, hq⟩ := h
  have hdiv : |q| / 2 ^ F.emin = i * 2 ^ k := by rw [hq, mul_div_cancel_right₀ _ (by positivity)]
  rw [hdiv, mag, F.scaled_roundScaled hi, hq]
  push_cast
  rfl

theorem nearest_lt {q : ℚ} (h : F.Representable q) (hq : |q| < F.mag F.infinity) :
    F.nearest q < F.infinity := by
  rw [← F.mag_roundScaled h] at hq
  exact (min_le_right _ _).trans_lt (F.strictMono_mag.lt_iff_lt.mp hq)

theorem mag_nearest {q : ℚ} (h : F.Representable q) (hq : |q| < F.mag F.infinity) :
    F.mag (F.nearest q) = |q| := by
  have hmag := F.mag_roundScaled h
  rw [← hmag] at hq
  rw [nearest, min_eq_right (F.strictMono_mag.lt_iff_lt.mp hq).le, hmag]

/-! ## Integral parts -/

theorem Representable.of_abs_eq {q r : ℚ} (h : F.Representable q) (hr : |r| = |q|) :
    F.Representable r := by
  rw [Representable, hr]
  exact h

/-- Both parts of such a number are such numbers again. -/
theorem Representable.floor {q : ℚ} (hemin : F.emin ≤ 0) (h : F.Representable q) :
    F.Representable ⌊|q|⌋₊ ∧ F.Representable (|q| - ⌊|q|⌋₊) := by
  obtain ⟨i, k, hi, hq⟩ := h
  obtain ⟨j, hj⟩ := Int.eq_ofNat_of_zero_le (neg_nonneg.mpr hemin)
  have hemin' : (2 : ℚ) ^ F.emin = (2 ^ j)⁻¹ := by rw [← zpow_natCast, ← zpow_neg, ← hj, neg_neg]
  rcases Nat.le_total j k with hle | hle
  · -- an integer
    obtain ⟨c, rfl⟩ := Nat.exists_eq_add_of_le hle
    have hint : |q| = (i * 2 ^ c : ℕ) := by
      rw [hq, hemin', pow_add]
      field_simp
      push_cast
      rfl
    rw [hint, Nat.floor_natCast, sub_self]
    exact ⟨⟨i, j + c, hi, by rw [Nat.abs_cast, ← hint, hq]⟩, ⟨0, 0, by positivity, by simp⟩⟩
  · obtain ⟨c, rfl⟩ := Nat.exists_eq_add_of_le hle
    have hpow : (2 : ℚ) ^ k * 2 ^ F.emin = (2 ^ c)⁻¹ := by
      rw [hemin', pow_add]
      field_simp
    have hfrac : |q| = (i : ℚ) / (2 ^ c : ℕ) := by
      rw [hq, mul_assoc, hpow]
      push_cast
      rfl
    have hsplit : (i : ℚ) = 2 ^ c * (i / 2 ^ c : ℕ) + (i % 2 ^ c : ℕ) := by
      exact_mod_cast (Nat.div_add_mod i (2 ^ c)).symm
    rw [hfrac, Nat.floor_div_eq_div]
    refine ⟨?_, i % 2 ^ c, k, (Nat.mod_le _ _).trans_lt hi, ?_⟩
    · have hint := F.representable_intCast (k := (i / 2 ^ c : ℕ)) hemin (by
        rw [Nat.abs_cast]
        exact_mod_cast (Nat.div_le_self _ _).trans_lt hi)
      rwa [Int.cast_natCast] at hint
    · have hrest : (i : ℚ) / (2 ^ c : ℕ) - (i / 2 ^ c : ℕ) = (i % 2 ^ c : ℕ) * (2 ^ c)⁻¹ := by
        rw [Nat.cast_pow, Nat.cast_ofNat, sub_eq_iff_eq_add, div_eq_iff (by positivity)]
        rw [add_mul, mul_assoc, inv_mul_cancel₀ (by positivity)]
        linarith
      rw [mul_assoc, hpow, ← hrest, abs_of_nonneg]
      rw [hrest]
      positivity

/-- The significand of a large number has no room for a fraction. -/
theorem Representable.floor_of_large {q : ℚ} (h : F.Representable q)
    (hq : 2 ^ (F.mantissa + 1) ≤ |q|) :
    (⌊|q|⌋₊ : ℚ) = |q| := by
  obtain ⟨i, k, hi, habs⟩ := h
  have hi' : (i : ℚ) < 2 ^ (F.mantissa + 1) := by exact_mod_cast hi
  have hunit : (2 : ℚ) ^ ((k : ℤ) + F.emin) = 2 ^ k * 2 ^ F.emin := by
    rw [zpow_add₀ (by norm_num), zpow_natCast]
  rw [mul_assoc, ← hunit] at habs
  have hexp : 0 ≤ (k : ℤ) + F.emin := by
    by_contra hneg
    have hone : (2 : ℚ) ^ ((k : ℤ) + F.emin) ≤ 2 ^ (0 : ℤ) :=
      zpow_le_zpow_right₀ (by norm_num) (by omega)
    have hle : (i : ℚ) * 2 ^ ((k : ℤ) + F.emin) ≤ i * 2 ^ (0 : ℤ) :=
      mul_le_mul_of_nonneg_left hone (Nat.cast_nonneg i)
    rw [zpow_zero, mul_one] at hle
    linarith
  obtain ⟨j, hj⟩ := Int.eq_ofNat_of_zero_le hexp
  have hint : |q| = (i * 2 ^ j : ℕ) := by
    rw [habs, hj, zpow_natCast]
    push_cast
    rfl
  rw [hint, Nat.floor_natCast]

/-- The words have room for the patterns. -/
def Fits (w : ℕ) : Prop := 0 < w ∧ F.infinity < 2 ^ (w - 1)

/-- Such a number is the number of its word. -/
theorem ofBits_toBits {w : ℕ} (hw : F.Fits w) {q : ℚ} (h : F.Representable q)
    (hq : |q| < F.mag F.infinity) :
    F.Finite (F.toBits w q) ∧ F.ofBits (F.toBits w q) = q := by
  have hlt := F.nearest_lt h hq
  have hroom := hlt.trans hw.2
  refine ⟨?_, ?_⟩
  · rw [Finite, toBits, pattern_word _ hw.1 hroom]
    exact hlt
  · rw [toBits, F.ofBits_word _ hw.1 hroom, signed, F.mag_nearest h hq]
    split_ifs with hneg
    · rw [abs_of_neg (by simpa using hneg), neg_neg]
    · exact abs_of_nonneg (by simpa using hneg)

end Llxvm.FloatFormat
