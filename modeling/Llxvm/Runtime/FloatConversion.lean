import Llxvm.Lib.BinaryRounding
import Llxvm.Runtime.Instruction

/-!
# Conversions of unsigned integers

`uitofp_*` and `fptoui_*` of `llxvm.runtime.Instruction`.  A finite floating point value is its
exact rational value.  The exponents that occur in the conversions of finite values stay inside
the range of the format, so it is left unbounded.
-/

namespace Llxvm.Runtime

abbrev JavaDouble := Binary 53

abbrev JavaFloat := Binary 24

/-- `(double)`, from an integer type. -/
def toDouble {w : ℕ} (value : BitVec w) : JavaDouble := .round 53 value.toInt

/-- `(float)`, from `double`. -/
def toFloat (value : JavaDouble) : JavaFloat := .round 24 value.value

/-- `(double)`, from `float`. -/
def widen (value : JavaFloat) : JavaDouble := .round 53 value.value

/-- The integer part. -/
def truncate (x : ℚ) : ℤ := if 0 ≤ x then ⌊x⌋ else ⌈x⌉

/-- `(int)` and `(long)`, from a floating point type: what is out of range becomes the nearest
number of the integer type. -/
def toInteger (w : ℕ) {p : ℕ} (value : Binary p) : BitVec w :=
  BitVec.ofInt w (max (-2 ^ (w - 1)) (min (2 ^ (w - 1) - 1) (truncate value.value)))

namespace Instruction

/-- The body of `uitofp_f64` for the types `byte`, `short` and `int`. -/
def uitofpF64By {w : ℕ} (range : BitVec 64) (value : BitVec w) : JavaDouble :=
  if 0 ≤ value.toInt then toDouble value else (toDouble value).add (toDouble range)

def uitofpF64Byte (value : BitVec 8) : JavaDouble := uitofpF64By 0x100#64 value
def uitofpF64Short (value : BitVec 16) : JavaDouble := uitofpF64By 0x10000#64 value
def uitofpF64Int (value : BitVec 32) : JavaDouble := uitofpF64By 0x100000000#64 value

/-- `uitofp_f64(long)`: the 53 bits of the mantissa are rounded by hand. -/
def uitofpF64Long (value : BitVec 64) : JavaDouble :=
  if 0 ≤ value.toInt then toDouble value
  else
    let mantissa := value >>> 11
    let discard := value.setWidth 32 &&& 0x7ff#32
    let mantissa :=
      if (0x400#32).slt discard ∨ discard = 0x400#32 ∧ mantissa.setWidth 32 &&& 1#32 = 1#32 then
        mantissa + 1#64
      else mantissa
    (toDouble mantissa).mul (toDouble (1#32 <<< 11))

def uitofpF32Byte (value : BitVec 8) : JavaFloat := toFloat (uitofpF64Byte value)
def uitofpF32Short (value : BitVec 16) : JavaFloat := toFloat (uitofpF64Short value)
def uitofpF32Int (value : BitVec 32) : JavaFloat := toFloat (uitofpF64Int value)
def uitofpF32Long (value : BitVec 64) : JavaFloat := toFloat (uitofpF64Long value)

def fptouiI8 {p : ℕ} (value : Binary p) : BitVec 8 := (toInteger 32 value).setWidth 8
def fptouiI16 {p : ℕ} (value : Binary p) : BitVec 16 := (toInteger 32 value).setWidth 16
def fptouiI32 {p : ℕ} (value : Binary p) : BitVec 32 := (toInteger 64 value).setWidth 32

/-- `Long.MAX_VALUE`. -/
def longMax : BitVec 64 := 0x7fffffffffffffff#64

/-- `fptoui_i64(double)`. -/
def fptouiI64 (value : JavaDouble) : BitVec 64 :=
  if value.value ≤ (toDouble longMax).value then toInteger 64 value
  else 0x8000000000000000#64 + toInteger 64 ((value.sub (toDouble longMax)).sub (toDouble 1#32))

def fptouiI64Float (value : JavaFloat) : BitVec 64 := fptouiI64 (widen value)

/-! ## To floating point -/

theorem value_toDouble_of_short {w : ℕ} {value : BitVec w} {x : ℚ} (hx : (value.toInt : ℚ) = x)
    (h : ShortBinary 53 x) : (toDouble value).value = x := by
  rw [← hx] at h ⊢
  exact Binary.value_round_of_short h

/-- The narrow types are converted to `double` exactly. -/
theorem value_uitofpF64By {w : ℕ} (hw : w < 53) {range : BitVec 64} (hrange : range.toNat = 2 ^ w)
    (value : BitVec w) : (uitofpF64By range value).value = value.toNat := by
  have hlt := value.isLt
  have hpow : 2 ^ w < 2 ^ 53 := Nat.pow_lt_pow_right (by decide) hw
  have hshort : ShortBinary 53 value.toNat := shortBinary_natCast (hlt.trans hpow)
  have hcond := BitVec.toInt_eq_toNat_cond value
  unfold uitofpF64By
  split
  · next hnonneg =>
      apply value_toDouble_of_short _ hshort
      exact_mod_cast (by split at hcond <;> omega : value.toInt = value.toNat)
  · next hneg =>
      have hint : value.toInt = value.toNat - (2 ^ w : ℕ) := by split at hcond <;> omega
      have hvalue : (toDouble value).value = value.toInt := by
        apply Binary.value_round_of_short
        refine ⟨value.toInt, 0, ?_, by simp⟩
        rw [abs_lt]
        constructor <;> omega
      have hsum : (toDouble range).value = (2 ^ w : ℕ) := by
        have hrangeInt : range.toInt = (2 ^ w : ℕ) := by
          rw [BitVec.toInt_eq_toNat_of_lt (by omega), hrange]
        exact value_toDouble_of_short (by rw [hrangeInt]; simp) (shortBinary_natCast hpow)
      have hexact : ((value.toInt : ℤ) : ℚ) + (2 ^ w : ℕ) = value.toNat := by
        rw [hint]
        push_cast
        ring
      rw [Binary.add, hvalue, hsum, hexact]
      exact Binary.value_round_of_short hshort

/-- So their conversions to `float` round once. -/
theorem value_toFloat_uitofpF64By {w : ℕ} (hw : w < 53) {range : BitVec 64}
    (hrange : range.toNat = 2 ^ w) (value : BitVec w) :
    (toFloat (uitofpF64By range value)).value = roundBinary 24 value.toNat := by
  rw [← value_uitofpF64By hw hrange]
  rfl

/-- The conversions of the narrow types to `double` are exact.  Those to `float` go by way of
`double` and round once, an `int` that has more than 24 bits, and nothing else. -/
theorem uitofp_narrow (b : BitVec 8) (s : BitVec 16) (i : BitVec 32) :
    ((uitofpF64Byte b).value = b.toNat ∧ (uitofpF32Byte b).value = b.toNat) ∧
      ((uitofpF64Short s).value = s.toNat ∧ (uitofpF32Short s).value = s.toNat) ∧
      (uitofpF64Int i).value = i.toNat ∧ (uitofpF32Int i).value = roundBinary 24 i.toNat := by
  have hfloat : ∀ {w : ℕ} {range : BitVec 64}, w < 24 → range.toNat = 2 ^ w → ∀ value : BitVec w,
      (toFloat (uitofpF64By range value)).value = value.toNat := by
    intro w range hw hrange value
    have hlt : value.toNat < 2 ^ 24 :=
      value.isLt.trans (Nat.pow_lt_pow_right (by decide) hw)
    rw [value_toFloat_uitofpF64By (by omega) hrange]
    exact roundBinary_of_short (shortBinary_natCast hlt)
  refine ⟨⟨?_, ?_⟩, ⟨?_, ?_⟩, ?_, ?_⟩
  · exact value_uitofpF64By (by decide) (by decide) b
  · exact hfloat (by decide) (by decide) b
  · exact value_uitofpF64By (by decide) (by decide) s
  · exact hfloat (by decide) (by decide) s
  · exact value_uitofpF64By (by decide) (by decide) i
  · exact value_toFloat_uitofpF64By (by decide) (by decide) i

/-! ### The rounding of `uitofp_f64(long)` by hand -/

/-- The mantissa of `uitofp_f64(long)` after its tie test. -/
def uitofpMantissa (value : BitVec 64) : BitVec 64 :=
  let mantissa := value >>> 11
  let discard := value.setWidth 32 &&& 0x7ff#32
  if (0x400#32).slt discard ∨ discard = 0x400#32 ∧ mantissa.setWidth 32 &&& 1#32 = 1#32 then
    mantissa + 1#64
  else mantissa

theorem uitofpF64Long_eq (value : BitVec 64) :
    uitofpF64Long value =
      if 0 ≤ value.toInt then toDouble value
      else (toDouble (uitofpMantissa value)).mul (toDouble (1#32 <<< 11)) := rfl

/-- The test on the discarded bits and on the last bit of the mantissa is the one of a rounding
to even. -/
theorem toNat_uitofpMantissa (value : BitVec 64) :
    (uitofpMantissa value).toNat * 2 ^ 11 = roundMultiple (2 ^ 11) value.toNat := by
  have hlt := value.isLt
  have hmantissa : (value >>> 11).toNat = value.toNat / 2 ^ 11 := by
    rw [BitVec.toNat_ushiftRight, Nat.shiftRight_eq_div_pow]
  have hdiscard : (value.setWidth 32 &&& 0x7ff#32).toNat = value.toNat % 2 ^ 11 := by
    rw [BitVec.toNat_and, BitVec.toNat_setWidth]
    exact (Nat.and_two_pow_sub_one_eq_mod _ 11).trans (Nat.mod_mod_of_dvd _ ⟨2 ^ 21, rfl⟩)
  have hodd : (value >>> 11).setWidth 32 &&& 1#32 = 1#32 ↔ value.toNat / 2 ^ 11 % 2 = 1 := by
    rw [← BitVec.toNat_inj, BitVec.toNat_and, BitVec.toNat_setWidth, hmantissa]
    have hand := Nat.and_one_is_mod (value.toNat / 2 ^ 11 % 2 ^ 32)
    rw [BitVec.toNat_ofNat, Nat.mod_eq_of_lt (by decide : 1 < 2 ^ 32), hand]
    omega
  have hgt : (0x400#32).slt (value.setWidth 32 &&& 0x7ff#32) ↔ 2 ^ 10 < value.toNat % 2 ^ 11 := by
    have hint : (value.setWidth 32 &&& 0x7ff#32).toInt = (value.toNat % 2 ^ 11 : ℕ) := by
      rw [BitVec.toInt_eq_toNat_of_lt (by omega), hdiscard]
    rw [BitVec.slt_iff_toInt_lt, hint]
    exact Int.ofNat_lt
  have heq : value.setWidth 32 &&& 0x7ff#32 = 0x400#32 ↔ value.toNat % 2 ^ 11 = 2 ^ 10 := by
    rw [← BitVec.toNat_inj, hdiscard]
    rfl
  have hnext : (value >>> 11 + 1#64).toNat = value.toNat / 2 ^ 11 + 1 := by
    rw [BitVec.toNat_add, hmantissa, BitVec.toNat_ofNat]
    omega
  rw [uitofpMantissa, roundMultiple]
  simp only [hgt, heq, hodd]
  split_ifs with hup hdown hdown
  · omega
  · rw [hnext]
  · rw [hmantissa]
  · omega

/-- The mantissa has at most 53 bits, or is the next power of two after a carry. -/
theorem toNat_uitofpMantissa_le (value : BitVec 64) : (uitofpMantissa value).toNat ≤ 2 ^ 53 := by
  have hround := toNat_uitofpMantissa value
  have hle : roundMultiple (2 ^ 11) value.toNat ≤ 2 ^ 53 * 2 ^ 11 :=
    roundMultiple_le ⟨2 ^ 53, rfl⟩ (by have := value.isLt; omega)
  omega

/-- The numbers above `2 ^ 63` with 53 significant bits are the multiples of `2 ^ 11`. -/
theorem uitofpMantissa_mul_eq_roundBinary {value : BitVec 64} (h : value.msb = true) :
    ((uitofpMantissa value).toNat * 2 ^ 11 : ℚ) = roundBinary 53 value.toNat := by
  have hbig : 2 ^ 63 ≤ value.toNat := two_pow_le_of_msb (by simp [h])
  have hlog : Nat.log 2 value.toNat = 63 := Nat.log_eq_of_pow_le_of_lt_pow hbig value.isLt
  have hunit : unitBinary 53 value.toNat = 2 ^ 11 := by rw [unitBinary, hlog]
  rw [roundBinary_natCast, hunit, ← toNat_uitofpMantissa]
  push_cast
  rfl

/-- A mantissa that small is converted exactly. -/
theorem value_toDouble_mantissa {k : BitVec 64} (hk : k.toNat ≤ 2 ^ 53) :
    (toDouble k).value = k.toNat := by
  have hint : k.toInt = k.toNat := BitVec.toInt_eq_toNat_of_lt (by omega)
  have hshort := shortBinary_mul_pow (p := 53) (by decide) hk 0
  rw [pow_zero, Nat.mul_one] at hshort
  exact value_toDouble_of_short (by rw [hint]; simp) hshort

theorem value_toDouble_scale : (toDouble (1#32 <<< 11)).value = 2 ^ 11 := by
  have hshort := shortBinary_mul_pow (p := 53) (k := 1) (by decide) (by decide) 11
  have hvalue : (toDouble (1#32 <<< 11)).value = (1 * 2 ^ 11 : ℕ) :=
    value_toDouble_of_short (by norm_num; rfl) hshort
  rw [hvalue]
  norm_num

/-- The multiplication only moves the exponent. -/
theorem value_mul_scale {k : BitVec 64} (hk : k.toNat ≤ 2 ^ 53) :
    ((toDouble k).mul (toDouble (1#32 <<< 11))).value =
      (toDouble k).value * (toDouble (1#32 <<< 11)).value := by
  have hshort := shortBinary_mul_pow (p := 53) (by decide) hk 11
  have hmul : (toDouble k).value * (toDouble (1#32 <<< 11)).value = (k.toNat * 2 ^ 11 : ℕ) := by
    rw [value_toDouble_mantissa hk, value_toDouble_scale]
    push_cast
    rfl
  rw [Binary.mul, hmul]
  exact Binary.value_round_of_short hshort

/-- The rounding that `uitofp_f64(long)` does by hand. -/
theorem value_uitofpF64Long (value : BitVec 64) :
    (uitofpF64Long value).value = roundBinary 53 value.toNat := by
  rw [uitofpF64Long_eq]
  split
  · next hnonneg =>
      have hsmall := toNat_lt_of_msb ((toInt_nonneg_iff value).mp hnonneg)
      have hint : value.toInt = value.toNat := BitVec.toInt_eq_toNat_of_lt (by omega)
      rw [toDouble, hint]
      rfl
  · next hneg =>
      have hmsb : value.msb = true := by simpa using mt (toInt_nonneg_iff value).mpr hneg
      have hle := toNat_uitofpMantissa_le value
      rw [value_mul_scale hle, value_toDouble_mantissa hle, value_toDouble_scale,
        uitofpMantissa_mul_eq_roundBinary hmsb]

/-- Only the tie test rounds: neither the conversion of the mantissa nor the multiplication does
it a second time. -/
theorem uitofpF64Long_rounds_once (value : BitVec 64) (h : value.msb = true) :
    uitofpF64Long value = (toDouble (uitofpMantissa value)).mul (toDouble (1#32 <<< 11)) ∧
      ((uitofpMantissa value).toNat * 2 ^ 11 : ℚ) = roundBinary 53 value.toNat ∧
      (uitofpMantissa value).toNat ≤ 2 ^ 53 ∧
      (toDouble (uitofpMantissa value)).value = (uitofpMantissa value).toNat ∧
      (toDouble (1#32 <<< 11)).value = 2 ^ 11 ∧
      (uitofpF64Long value).value =
        (toDouble (uitofpMantissa value)).value * (toDouble (1#32 <<< 11)).value := by
  have hneg : ¬ 0 ≤ value.toInt := fun hnonneg => by simp [(toInt_nonneg_iff value).mp hnonneg] at h
  have hle := toNat_uitofpMantissa_le value
  have heq : uitofpF64Long value =
      (toDouble (uitofpMantissa value)).mul (toDouble (1#32 <<< 11)) := by
    rw [uitofpF64Long_eq, if_neg hneg]
  refine ⟨heq, uitofpMantissa_mul_eq_roundBinary h, hle, value_toDouble_mantissa hle,
    value_toDouble_scale, ?_⟩
  rw [heq]
  exact value_mul_scale hle

/-- A tie with an odd mantissa, all bits of which carry. -/
theorem uitofpF64Long_rounds_once_carry :
    (uitofpMantissa 0xfffffffffffffc00#64).toNat = 2 ^ 53 ∧
      (uitofpF64Long 0xfffffffffffffc00#64).value =
        (toDouble (uitofpMantissa 0xfffffffffffffc00#64)).value *
          (toDouble (1#32 <<< 11)).value := by
  obtain ⟨-, -, -, -, -, h⟩ := uitofpF64Long_rounds_once 0xfffffffffffffc00#64 (by decide)
  exact ⟨by decide, h⟩

theorem value_uitofpF32Long (value : BitVec 64) :
    (uitofpF32Long value).value = roundBinary 24 (roundBinary 53 value.toNat) := by
  rw [← value_uitofpF64Long]
  rfl

/-- The two roundings of `uitofp_f32(long)` are a single one, except next to the middle between
two numbers of type `float`. -/
theorem uitofpF32Long_eq_iff (value : BitVec 64) :
    (uitofpF32Long value).value = roundBinary 24 value.toNat ↔
      ¬ (2 ^ 53 ≤ value.toNat ∧
        Misrounds (unitBinary 53 value.toNat) (unitBinary 24 value.toNat) value.toNat) := by
  rw [value_uitofpF32Long]
  exact roundBinary_roundBinary_iff (by decide) (by decide) value.toNat

/-- One more than the middle between `2 ^ 63` and the next number of type `float` becomes
`2 ^ 63`. -/
theorem uitofpF32Long_ne_nearest :
    (uitofpF32Long 0x8000008000000001#64).value ≠
      roundBinary 24 (0x8000008000000001#64).toNat := by
  have hround : ∀ {p n : ℕ}, 0 < p → 2 ^ 63 ≤ n → n ≤ 2 ^ 64 →
      roundBinary p n = (roundMultiple (2 ^ (64 - p)) n : ℕ) :=
    fun hp hlo hhi => roundBinary_natCast_of_le hlo hhi hp
  have hfirst : roundMultiple (2 ^ (64 - 53)) 0x8000008000000001 = 0x8000008000000000 := by decide
  have hsecond : roundMultiple (2 ^ (64 - 24)) 0x8000008000000000 = 2 ^ 63 := by decide
  have honce : roundMultiple (2 ^ (64 - 24)) 0x8000008000000001 = 2 ^ 63 + 2 ^ 40 := by decide
  have hvalue : (0x8000008000000001#64).toNat = 0x8000008000000001 := rfl
  rw [value_uitofpF32Long, hvalue, hround (by decide) (by decide) (by decide), hfirst,
    hround (by decide) (by decide) (by decide), hsecond,
    hround (by decide) (by decide) (by decide), honce, ne_eq, Nat.cast_inj]
  decide

/-! ## From floating point -/

theorem value_longMax : (toDouble longMax).value = 2 ^ 63 := by
  have hint : ((longMax.toInt : ℤ) : ℚ) = (0x7fffffffffffffff : ℕ) := by
    have hlong : longMax.toInt = 0x7fffffffffffffff := rfl
    rw [hlong]
    norm_num
  have hround : roundBinary 53 (0x7fffffffffffffff : ℕ) =
      (roundMultiple (2 ^ (62 + 1 - 53)) 0x7fffffffffffffff : ℕ) :=
    roundBinary_natCast_of_le (by decide) (by decide) (by decide)
  have hup : roundMultiple (2 ^ (62 + 1 - 53)) 0x7fffffffffffffff = 2 ^ 63 := by decide
  change roundBinary 53 longMax.toInt = 2 ^ 63
  rw [hint, hround, hup]
  norm_num

/-- A cast of a value in range cuts the fraction off. -/
theorem toNat_toInteger {w p : ℕ} {value : Binary p} (hnonneg : 0 ≤ value.value)
    (hlt : value.value < 2 ^ (w - 1)) : (toInteger w value).toNat = ⌊value.value⌋₊ := by
  have hfloor : ⌊value.value⌋ = (⌊value.value⌋₊ : ℤ) := (Int.natCast_floor_eq_floor hnonneg).symm
  have hbound : ⌊value.value⌋₊ < 2 ^ (w - 1) := by
    rw [Nat.floor_lt hnonneg]
    exact_mod_cast hlt
  have hint : (⌊value.value⌋₊ : ℤ) < 2 ^ (w - 1) := by exact_mod_cast hbound
  have hpow : 2 ^ (w - 1) ≤ 2 ^ w := Nat.pow_le_pow_right (by decide) (Nat.sub_le w 1)
  have hclamp : max (-2 ^ (w - 1)) (min (2 ^ (w - 1) - 1) (truncate value.value)) =
      (⌊value.value⌋₊ : ℤ) := by
    rw [truncate, if_pos hnonneg, hfloor]
    omega
  rw [toInteger, hclamp, BitVec.ofInt_natCast, BitVec.toNat_ofNat, Nat.mod_eq_of_lt (by omega)]

/-- The conversions to the narrow types, by way of a wider one. -/
theorem toNat_setWidth_toInteger {w z p : ℕ} (hw : w < z) {value : Binary p}
    (hnonneg : 0 ≤ value.value) (hlt : value.value < 2 ^ w) :
    ((toInteger z value).setWidth w).toNat = ⌊value.value⌋₊ := by
  have hfloor : ⌊value.value⌋₊ < 2 ^ w := by
    rw [Nat.floor_lt hnonneg]
    exact_mod_cast hlt
  have hpow : (2 : ℚ) ^ w ≤ 2 ^ (z - 1) := pow_le_pow_right₀ (by norm_num) (by omega)
  rw [BitVec.toNat_setWidth, toNat_toInteger hnonneg (hlt.trans_le hpow), Nat.mod_eq_of_lt hfloor]

/-- From `2 ^ 63` on a `double` is a multiple of `2 ^ 11`. -/
theorem exists_eq_of_two_pow_le {value : JavaDouble} (hlo : 2 ^ 63 ≤ value.value)
    (hhi : value.value < 2 ^ 64) :
    ∃ i : ℕ, i < 2 ^ 52 ∧ value.value = (2 ^ 63 + 2 ^ 11 * i : ℕ) := by
  obtain ⟨k, hk⟩ := value.short.exists_mul_ulp
  have hpos : 0 < value.value := lt_of_lt_of_le (by norm_num) hlo
  have hlog : Int.log 2 |value.value| = 63 := by
    rw [abs_of_pos hpos]
    apply le_antisymm
    · apply Int.lt_add_one_iff.mp
      apply (Int.lt_zpow_iff_log_lt (by decide) hpos).mp
      exact_mod_cast hhi
    · apply (Int.zpow_le_iff_le_log (by decide) hpos).mp
      exact_mod_cast hlo
  have hulp : ulp 53 value.value = 2 ^ 11 := by
    rw [ulp, hlog]
    norm_num
  rw [hulp] at hk
  have hk₁ : (2 ^ 52 : ℚ) ≤ k := by linarith
  have hk₂ : (k : ℚ) < 2 ^ 53 := by linarith
  have hk₁' : (2 ^ 52 : ℤ) ≤ k := by exact_mod_cast hk₁
  have hk₂' : k < (2 ^ 53 : ℤ) := by exact_mod_cast hk₂
  obtain ⟨i, hi⟩ := Int.eq_ofNat_of_zero_le (sub_nonneg.mpr hk₁')
  have hsum : k = 2 ^ 52 + (i : ℤ) := by omega
  refine ⟨i, by omega, ?_⟩
  rw [hk, hsum]
  push_cast
  ring

theorem toNat_fptouiI64_of_lt {value : JavaDouble} (hnonneg : 0 ≤ value.value)
    (hlt : value.value < 2 ^ 63) : (fptouiI64 value).toNat = ⌊value.value⌋₊ := by
  rw [fptouiI64, if_pos (by rw [value_longMax]; exact hlt.le)]
  exact toNat_toInteger hnonneg hlt

/-- The difference is rounded to what it was unless it has 53 bits at most. -/
theorem roundBinary_pred {i : ℕ} (hi₀ : 0 < i) (hi : i < 2 ^ 52) :
    roundBinary 53 (2 ^ 11 * i - 1 : ℕ) =
      (if 2 ^ 11 * i ≤ 2 ^ 53 then 2 ^ 11 * i - 1 else 2 ^ 11 * i : ℕ) := by
  split_ifs with h
  · exact roundBinary_of_short (shortBinary_natCast (by omega))
  · have hlo : 53 ≤ Nat.log 2 (2 ^ 11 * i - 1) := Nat.le_log_of_pow_le (by decide) (by omega)
    have hhi : Nat.log 2 (2 ^ 11 * i - 1) < 63 := Nat.log_lt_of_lt_pow (by omega) (by omega)
    obtain ⟨s, hs, hunit⟩ : ∃ s < 10, unitBinary 53 (2 ^ 11 * i - 1) = 2 * 2 ^ s := by
      refine ⟨Nat.log 2 (2 ^ 11 * i - 1) - 53, by omega, ?_⟩
      rw [unitBinary, ← pow_succ']
      congr 1
      omega
    have hsplit : 2 ^ 11 * i = 2 * (2 * 2 ^ s) * (2 ^ (9 - s) * i) := by
      have hpow : 2 ^ 11 = 2 * (2 * 2 ^ s) * 2 ^ (9 - s) := by
        rw [← pow_succ', ← pow_succ', ← pow_add]
        congr 1
        omega
      rw [hpow, Nat.mul_assoc]
    rw [roundBinary_natCast, hunit, hsplit, roundMultiple_pred]
    · have := Nat.two_pow_pos s
      omega
    · exact Nat.mul_pos (Nat.two_pow_pos _) hi₀

/-- The constant that is subtracted is `2 ^ 63`, and one more is subtracted from the difference. -/
theorem toNat_fptouiI64_of_gt {value : JavaDouble} {i : ℕ} (hi₀ : 0 < i) (hi : i < 2 ^ 52)
    (hvalue : value.value = (2 ^ 63 + 2 ^ 11 * i : ℕ)) :
    (fptouiI64 value).toNat =
      if 2 ^ 11 * i ≤ 2 ^ 53 then 2 ^ 63 + 2 ^ 11 * i - 1 else 2 ^ 63 + 2 ^ 11 * i := by
  have hgt : ¬ value.value ≤ (toDouble longMax).value := by
    rw [value_longMax, hvalue, not_le]
    exact_mod_cast (by omega : 2 ^ 63 < 2 ^ 63 + 2 ^ 11 * i)
  have hone : (toDouble 1#32).value = (1 : ℕ) :=
    value_toDouble_of_short (by norm_num) (shortBinary_natCast (by decide))
  have hdiff : (value.sub (toDouble longMax)).value = (2 ^ 11 * i : ℕ) := by
    have hexact : value.value - (toDouble longMax).value = (2 ^ 11 * i : ℕ) := by
      rw [value_longMax, hvalue]
      push_cast
      ring
    rw [Binary.sub, hexact, Nat.mul_comm]
    exact Binary.value_round_of_short (shortBinary_mul_pow (by decide) (by omega) 11)
  have hlast : ((value.sub (toDouble longMax)).sub (toDouble 1#32)).value =
      (if 2 ^ 11 * i ≤ 2 ^ 53 then 2 ^ 11 * i - 1 else 2 ^ 11 * i : ℕ) := by
    rw [← roundBinary_pred hi₀ hi, Binary.sub, hdiff, hone, ← Nat.cast_sub (by omega)]
    rfl
  have hlt : (if 2 ^ 11 * i ≤ 2 ^ 53 then 2 ^ 11 * i - 1 else 2 ^ 11 * i) < 2 ^ 63 := by
    split_ifs <;> omega
  have hcast : (toInteger 64 ((value.sub (toDouble longMax)).sub (toDouble 1#32))).toNat =
      if 2 ^ 11 * i ≤ 2 ^ 53 then 2 ^ 11 * i - 1 else 2 ^ 11 * i := by
    rw [toNat_toInteger, hlast, Nat.floor_natCast]
    · rw [hlast]
      exact Nat.cast_nonneg _
    · rw [hlast]
      exact_mod_cast hlt
  rw [fptouiI64, if_neg hgt, BitVec.toNat_add, hcast, BitVec.toNat_ofNat]
  split_ifs <;> omega

/-- `2 ^ 63` itself is cast, and is out of range for the cast. -/
theorem toNat_fptouiI64_of_eq {value : JavaDouble} (h : value.value = 2 ^ 63) :
    (fptouiI64 value).toNat = 2 ^ 63 - 1 := by
  have htruncate : truncate value.value = 2 ^ 63 := by
    have hfloor : ⌊(2 ^ 63 : ℚ)⌋ = 2 ^ 63 := by
      have := Int.floor_intCast (R := ℚ) (2 ^ 63)
      push_cast at this
      exact this
    rw [truncate, h, if_pos (by norm_num), hfloor]
  rw [fptouiI64, if_pos (by rw [value_longMax, h]), toInteger, htruncate]
  rfl

/-- From `2 ^ 63` on, one is lost where the difference from it has 53 bits at most. -/
theorem toNat_fptouiI64_eq_floor_iff {value : JavaDouble} (hnonneg : 0 ≤ value.value)
    (hlt : value.value < 2 ^ 64) :
    (fptouiI64 value).toNat = ⌊value.value⌋₊ ↔
      value.value < 2 ^ 63 ∨ 2 ^ 63 + 2 ^ 53 < value.value := by
  rcases lt_or_ge value.value (2 ^ 63) with hsmall | hlo
  · simp [hsmall, toNat_fptouiI64_of_lt hnonneg hsmall]
  · obtain ⟨i, hi, hvalue⟩ := exists_eq_of_two_pow_le hlo hlt
    have hfloor : ⌊value.value⌋₊ = 2 ^ 63 + 2 ^ 11 * i := by rw [hvalue, Nat.floor_natCast]
    have hbeyond : 2 ^ 63 + 2 ^ 53 < value.value ↔ 2 ^ 53 < 2 ^ 11 * i := by
      rw [hvalue]
      constructor
      · intro h
        have h' : 2 ^ 63 + 2 ^ 53 < 2 ^ 63 + 2 ^ 11 * i := by exact_mod_cast h
        omega
      · intro h
        exact_mod_cast (by omega : 2 ^ 63 + 2 ^ 53 < 2 ^ 63 + 2 ^ 11 * i)
    rw [hfloor, hbeyond]
    rcases Nat.eq_zero_or_pos i with rfl | hpos
    · have hmin : value.value = 2 ^ 63 := by
        rw [hvalue]
        norm_num
      rw [toNat_fptouiI64_of_eq hmin]
      simp [not_lt.mpr hlo]
    · rw [toNat_fptouiI64_of_gt hpos hi hvalue]
      split_ifs with h
      · simp only [not_lt.mpr hlo, false_or]
        omega
      · simp only [not_lt.mpr hlo, false_or, true_iff]
        omega

/-- The conversion of a `double` to an unsigned `i64` is exact below `2 ^ 63`, and above the
values whose difference from it has 53 bits at most. -/
theorem fptouiI64_eq_iff (value : JavaDouble) (hnonneg : 0 ≤ value.value)
    (hlt : value.value < 2 ^ 64) :
    (fptouiI64 value).toNat = ⌊value.value⌋₊ ↔
      value.value < 2 ^ 63 ∨ 2 ^ 63 + 2 ^ 53 < value.value :=
  toNat_fptouiI64_eq_floor_iff hnonneg hlt

theorem floor_three_quarters : ⌊(3 * 2 ^ 62 : ℚ)⌋₊ = 3 * 2 ^ 62 := by
  exact_mod_cast Nat.floor_natCast (R := ℚ) (3 * 2 ^ 62)

/-- Three quarters of `2 ^ 64`. -/
theorem fptouiI64_three_quarters :
    (fptouiI64 ⟨3 * 2 ^ 62, 3, 62, by decide, by norm_num⟩).toNat = 3 * 2 ^ 62 := by
  have h := (fptouiI64_eq_iff ⟨3 * 2 ^ 62, 3, 62, by decide, by norm_num⟩ (by norm_num)
    (by norm_num)).mpr (Or.inr (by norm_num))
  exact h.trans floor_three_quarters

/-- `2 ^ 63` becomes `2 ^ 63 - 1`. -/
theorem fptouiI64_ne_floor :
    (fptouiI64 ⟨2 ^ 63, 1, 63, by decide, by norm_num⟩).toNat ≠ ⌊(2 ^ 63 : ℚ)⌋₊ := by
  have hfloor : ⌊(2 ^ 63 : ℚ)⌋₊ = 2 ^ 63 := by
    have := Nat.floor_natCast (R := ℚ) (2 ^ 63)
    push_cast at this
    exact this
  rw [toNat_fptouiI64_of_eq rfl, hfloor]
  decide

/-- A value that is not too large for a narrow type is cut to it by the narrowing casts. -/
theorem toNat_setWidth_toInteger_iff {w z p : ℕ} (hw : w < z) {value : Binary p}
    (hnonneg : 0 ≤ value.value) :
    ((toInteger z value).setWidth w).toNat = ⌊value.value⌋₊ ↔ value.value < 2 ^ w := by
  refine ⟨fun h => ?_, toNat_setWidth_toInteger hw hnonneg⟩
  have hlt := ((toInteger z value).setWidth w).isLt
  rw [h, Nat.floor_lt hnonneg] at hlt
  exact_mod_cast hlt

theorem value_widen (value : JavaFloat) : (widen value).value = value.value :=
  Binary.value_round_of_short (value.short.mono (by decide))

/-- The conversions of a `float` are exact for the values of the unsigned type, except that the one
to `i64` loses one from `2 ^ 63` on where the difference from it has 53 bits at most. -/
theorem fptoui_eq_floor_iff (value : JavaFloat) (hnonneg : 0 ≤ value.value) :
    ((fptouiI8 value).toNat = ⌊value.value⌋₊ ↔ value.value < 2 ^ 8) ∧
      ((fptouiI16 value).toNat = ⌊value.value⌋₊ ↔ value.value < 2 ^ 16) ∧
      ((fptouiI32 value).toNat = ⌊value.value⌋₊ ↔ value.value < 2 ^ 32) ∧
      ((fptouiI64Float value).toNat = ⌊value.value⌋₊ ↔
        value.value < 2 ^ 63 ∨ 2 ^ 63 + 2 ^ 53 < value.value ∧ value.value < 2 ^ 64) := by
  refine ⟨toNat_setWidth_toInteger_iff (by decide) hnonneg,
    toNat_setWidth_toInteger_iff (by decide) hnonneg,
    toNat_setWidth_toInteger_iff (by decide) hnonneg, ?_⟩
  have hwiden := value_widen value
  rcases lt_or_ge value.value (2 ^ 64) with hlt | hge
  · have hiff := toNat_fptouiI64_eq_floor_iff (hwiden ▸ hnonneg) (hwiden ▸ hlt)
    rw [hwiden] at hiff
    change (fptouiI64 (widen value)).toNat = _ ↔ _
    simpa [hlt] using hiff
  · have hne : (fptouiI64Float value).toNat ≠ ⌊value.value⌋₊ := by
      intro h
      have hlt := (fptouiI64Float value).isLt
      rw [h, Nat.floor_lt hnonneg] at hlt
      exact absurd (by exact_mod_cast hlt) hge.not_gt
    have hbig : ¬ value.value < 2 ^ 63 := fun h => absurd (h.trans_le (by norm_num)) hge.not_gt
    simp [hne, hbig, hge.not_gt]

/-- Three quarters of `2 ^ 64` fit in an `i64` only. -/
theorem fptoui_three_quarters :
    (fptouiI64Float ⟨3 * 2 ^ 62, 3, 62, by decide, by norm_num⟩).toNat = 3 * 2 ^ 62 ∧
      (fptouiI32 (⟨3 * 2 ^ 62, 3, 62, by decide, by norm_num⟩ : JavaFloat)).toNat ≠
        3 * 2 ^ 62 := by
  obtain ⟨-, -, hint, hlong⟩ := fptoui_eq_floor_iff ⟨3 * 2 ^ 62, 3, 62, by decide, by norm_num⟩
    (by norm_num)
  have hfloor := floor_three_quarters
  refine ⟨(hlong.mpr (.inr (by norm_num))).trans hfloor, fun h => ?_⟩
  have hlt := hint.mp (h.trans hfloor.symm)
  norm_num at hlt

end Instruction

end Llxvm.Runtime
