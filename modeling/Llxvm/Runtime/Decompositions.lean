import Llxvm.Lib.FloatEncoding
import Llxvm.Runtime.FlatMemory
import Llxvm.Runtime.FloatConversion
import Mathlib.Data.Nat.Bitwise

/-!
# Fractions and exponents

`frexp`, `modf` and their variants of type `float` in `llxvm.runtime.Math`.  A floating point
number is the word of its raw bits.
-/

namespace Llxvm.Runtime.Math

open FloatFormat LittleEndian Memory

section format

variable (F : FloatFormat) {w : ℕ}

def isZero (x : BitVec w) : Bool := decide (pattern x = 0)
def isInfinite (x : BitVec w) : Bool := decide (pattern x = F.infinity)
def isNaN (x : BitVec w) : Bool := decide (F.infinity < pattern x)

/-- `(int) x`. -/
def castInt (x : BitVec w) : BitVec 32 :=
  if isNaN F x then 0#32
  else BitVec.ofInt 32 (max (-2 ^ 31) (min (2 ^ 31 - 1) (truncate (F.ofBits x))))

/-- `x - y`, for a finite `y`. -/
def sub (x y : BitVec w) : BitVec w :=
  if ¬ F.Finite x then x
  else if F.ofBits x = F.ofBits y then word w (x.msb && !y.msb) 0
  else F.toBits w (F.ofBits x - F.ofBits y)

/-- The body of `modf`. -/
def modfBy (store : BitVec 32 → BitVec w → MemM Unit) (x : BitVec w) (iptr : BitVec 32) :
    MemM (BitVec w) := do
  let i := F.toBits w (castInt F x).toInt
  store iptr i
  return sub F x i

end format

def frexp (x : BitVec 64) (exp : BitVec 32) : MemM (BitVec 64) := do
  if isZero x then
    storeInt exp 0#32
  if isNaN .double x || isInfinite .double x || isZero x then
    return x
  let bits := x
  storeInt exp (((bits &&& 0x7ff0000000000000#64) >>> 52).setWidth 32 - 1022#32)
  return bits &&& 0x800fffffffffffff#64 ||| 0x3fe0000000000000#64

/-- Unlike that of `frexp`, the mask does not keep the sign. -/
def frexpf (x exp : BitVec 32) : MemM (BitVec 32) := do
  if isZero x then
    storeInt exp 0#32
  if isNaN .single x || isInfinite .single x || isZero x then
    return x
  let bits := x
  storeInt exp (((bits &&& 0x7f800000#32) >>> 23) - 126#32)
  return bits &&& 0x7fffff#32 ||| 0x3f000000#32

def modf (x : BitVec 64) (iptr : BitVec 32) : MemM (BitVec 64) :=
  modfBy .double storeDouble x iptr

def modff (x iptr : BitVec 32) : MemM (BitVec 32) := modfBy .single storeFloat x iptr

/-! ## What they are for -/

section specification

variable (F : FloatFormat) {w : ℕ} (f : BitVec w → BitVec 32 → MemM (BitVec w))

/-- `x` is the returned fraction times two to the stored exponent. -/
def SplitsExponent (m : Memory) (x : BitVec w) (exp : BitVec 32) : Prop :=
  ∃ (r : BitVec w) (m' : Memory) (e : BitVec 32), f x exp m = .ok r m' ∧
    m'.Holds exp.toNat (leBytes 4 e) ∧ F.Finite r ∧
    F.ofBits x = F.ofBits r * 2 ^ e.toInt ∧ 1 / 2 ≤ |F.ofBits r| ∧ |F.ofBits r| < 1

/-- `x` is the stored integral part, of `n` bytes, and the returned fraction. -/
def SplitsInteger (n : ℕ) (m : Memory) (x : BitVec w) (iptr : BitVec 32) : Prop :=
  ∃ (r : BitVec w) (m' : Memory) (i : BitVec w), f x iptr m = .ok r m' ∧
    m'.Holds iptr.toNat (leBytes n i) ∧ F.Finite i ∧ F.Finite r ∧
    F.ofBits i = truncate (F.ofBits x) ∧ F.ofBits r = F.ofBits x - F.ofBits i ∧
    |F.ofBits x - F.ofBits i| < 1

end specification

/-- `n` bytes can be stored at the address. -/
def Writable (m : Memory) (addr : BitVec 32) (n : ℕ) : Prop :=
  m.Mapped addr.toNat ∧ InPage addr.toNat n

theorem storeBytes_iff (m m' : Memory) (addr : BitVec 32) (bs : List (BitVec 8)) :
    storeBytes addr bs m = .ok () m' ↔
      Writable m addr bs.length ∧ m' = m.write addr.toNat bs := by
  rcases storeBytes_cases m addr bs with ⟨hm, hp, hok⟩ | ⟨e, herror⟩
  · rw [hok]
    constructor
    · intro h
      cases h
      exact ⟨⟨hm, hp⟩, rfl⟩
    · rintro ⟨-, rfl⟩
      rfl
  · rw [herror]
    constructor
    · intro h
      cases h
    · rintro ⟨⟨hm, hp⟩, -⟩
      rw [storeBytes_ok hm hp] at herror
      cases herror

/-! ## Fractions and exponents -/

/-- The fields of a pattern. -/
theorem mag_fields (F : FloatFormat) {n : ℕ} (hn : 2 ^ F.mantissa ≤ n) :
    F.mag n = (2 ^ F.mantissa + (n % 2 ^ F.mantissa : ℕ)) *
      2 ^ (((n / 2 ^ F.mantissa : ℕ) : ℤ) - 1 + F.emin) := by
  have hpos := Nat.two_pow_pos F.mantissa
  have hexp : n / 2 ^ F.mantissa ≠ 0 := (Nat.div_pos hn hpos).ne'
  rw [← F.mag_normal hexp (Nat.mod_lt n hpos), Nat.mul_comm, Nat.div_add_mod]

/-- The exponent field of the numbers from a half up to one. -/
def half (F : FloatFormat) : ℕ := 2 ^ (F.exponent - 1) - 2

section half

variable {F : FloatFormat} (hF : 3 ≤ F.exponent)
include hF

theorem half_ne_zero : half F ≠ 0 := by
  have hpow : 2 ^ 2 ≤ 2 ^ (F.exponent - 1) := Nat.pow_le_pow_right (by decide) (by omega)
  unfold half
  omega

theorem half_add_emin : (half F : ℤ) - 1 + F.emin = -(F.mantissa + 1 : ℕ) := by
  have hpow : 2 ^ 2 ≤ 2 ^ (F.exponent - 1) := Nat.pow_le_pow_right (by decide) (by omega)
  unfold half emin
  push_cast [Nat.cast_sub (by omega : 2 ≤ 2 ^ (F.exponent - 1))]
  omega

/-- With that exponent field a pattern is a fraction. -/
theorem mag_half {i : ℕ} (hi : i < 2 ^ F.mantissa) :
    F.mag (half F * 2 ^ F.mantissa + i) = (2 ^ F.mantissa + i) / 2 ^ (F.mantissa + 1) := by
  rw [F.mag_normal (half_ne_zero hF) hi, half_add_emin hF, zpow_neg, zpow_natCast,
    ← div_eq_mul_inv]

theorem mag_half_bounds {i : ℕ} (hi : i < 2 ^ F.mantissa) :
    1 / 2 ≤ F.mag (half F * 2 ^ F.mantissa + i) ∧ F.mag (half F * 2 ^ F.mantissa + i) < 1 := by
  have hi' : (i : ℚ) < 2 ^ F.mantissa := by exact_mod_cast hi
  have hnonneg : (0 : ℚ) ≤ i := Nat.cast_nonneg i
  rw [mag_half hF hi, pow_succ]
  constructor
  · rw [div_le_div_iff₀ (by norm_num) (by positivity)]
    linarith
  · rw [div_lt_one (by positivity)]
    linarith

/-- The fraction and the distance of the exponent fields recompose a normal number, and no
subnormal one. -/
theorem mag_eq_mag_half_iff {n : ℕ} :
    F.mag n = F.mag (half F * 2 ^ F.mantissa + n % 2 ^ F.mantissa) *
        2 ^ (((n / 2 ^ F.mantissa : ℕ) : ℤ) - half F) ↔ 2 ^ F.mantissa ≤ n := by
  have hpos := Nat.two_pow_pos F.mantissa
  have hmod := Nat.mod_lt n hpos
  have hscale : F.mag (half F * 2 ^ F.mantissa + n % 2 ^ F.mantissa) *
      2 ^ (((n / 2 ^ F.mantissa : ℕ) : ℤ) - half F) =
        (2 ^ F.mantissa + (n % 2 ^ F.mantissa : ℕ)) *
          2 ^ (((n / 2 ^ F.mantissa : ℕ) : ℤ) - 1 + F.emin) := by
    rw [F.mag_normal (half_ne_zero hF) hmod, mul_assoc, ← zpow_add₀ (by norm_num)]
    congr 2
    ring
  rw [hscale]
  constructor
  · intro h
    by_contra hlt
    rw [not_le] at hlt
    rw [F.mag_subnormal hlt, Nat.mod_eq_of_lt hlt, Nat.div_eq_of_lt hlt,
      zpow_add₀ (by norm_num), ← mul_assoc] at h
    have hcancel := mul_right_cancel₀ (by positivity) h
    have hlt' : (n : ℚ) < 2 ^ F.mantissa := by exact_mod_cast hlt
    norm_num at hcancel
    linarith
  · exact mag_fields F

end half

/-! ### Masks -/

theorem and_two_pow_of_lt {n a : ℕ} (hn : n < 2 ^ (a + 1)) : n &&& 2 ^ a = 2 ^ a * (n / 2 ^ a) := by
  have hlt : n / 2 ^ a < 2 := Nat.div_lt_of_lt_mul (by rwa [← pow_succ])
  rw [Nat.and_comm, Nat.two_pow_and, Nat.testBit_eq_decide_div_mod_eq, Nat.mod_eq_of_lt hlt]
  congr 1
  generalize n / 2 ^ a = q at *
  interval_cases q <;> rfl

/-- The mantissa is kept and the exponent field is set. -/
theorem and_or_exponent (n m c : ℕ) :
    n &&& (2 ^ m - 1) ||| 2 ^ m * c = 2 ^ m * c + n % 2 ^ m := by
  rw [Nat.and_two_pow_sub_one_eq_mod, Nat.or_comm,
    Nat.two_pow_add_eq_or_of_lt (Nat.mod_lt n (Nat.two_pow_pos m))]

/-- The sign is kept, too. -/
theorem and_or_exponent_sign {n a m c : ℕ} (hn : n < 2 ^ (a + 1)) (hm : m ≤ a)
    (hc : 2 ^ m * c + 2 ^ m ≤ 2 ^ a) :
    n &&& (2 ^ a + (2 ^ m - 1)) ||| 2 ^ m * c =
      2 ^ a * (n / 2 ^ a) + (2 ^ m * c + n % 2 ^ m) := by
  have hpos := Nat.two_pow_pos m
  have hpow : 2 ^ m ≤ 2 ^ a := Nat.pow_le_pow_right (by decide) hm
  have hmask := Nat.two_pow_add_eq_or_of_lt (by omega : 2 ^ m - 1 < 2 ^ a) 1
  have hlow : 2 ^ m * c + n % 2 ^ m < 2 ^ a := by
    have := Nat.mod_lt n hpos
    omega
  rw [Nat.mul_one] at hmask
  rw [hmask, Nat.and_or_distrib_left, Nat.or_assoc, and_or_exponent, and_two_pow_of_lt hn,
    Nat.two_pow_add_eq_or_of_lt hlow]

/-- The exponent field of a pattern. -/
theorem and_shiftRight_exponent (n m e : ℕ) :
    (n &&& 2 ^ m * (2 ^ e - 1)) >>> m = n % 2 ^ (m + e) / 2 ^ m := by
  rw [Nat.shiftRight_and_distrib, Nat.shiftRight_eq_div_pow, Nat.shiftRight_eq_div_pow,
    Nat.mul_div_cancel_left _ (Nat.two_pow_pos m), Nat.and_two_pow_sub_one_eq_mod, pow_add,
    Nat.mod_mul_right_div_self]

theorem div_two_pow_of_msb {w : ℕ} (hw : 0 < w) (x : BitVec w) :
    x.toNat / 2 ^ (w - 1) = x.msb.toNat := by
  have hlt := x.isLt
  have hpow : 2 ^ w = 2 ^ (w - 1) * 2 := by rw [← pow_succ, Nat.sub_add_cancel hw]
  rw [BitVec.msb_eq_decide]
  by_cases h : 2 ^ (w - 1) ≤ x.toNat
  · rw [decide_eq_true h, Bool.toNat_true]
    apply Nat.div_eq_of_lt_le <;> omega
  · rw [decide_eq_false h, Bool.toNat_false]
    exact Nat.div_eq_of_lt (not_le.mp h)

/-- What `frexp` returns. -/
theorem frexp_word (x : BitVec 64) :
    x &&& 0x800fffffffffffff#64 ||| 0x3fe0000000000000#64 =
      word 64 x.msb (half .double * 2 ^ 52 + pattern x % 2 ^ 52) := by
  have hmod := Nat.mod_lt (pattern x) (Nat.two_pow_pos 52)
  have hlow : x.toNat % 2 ^ 52 = pattern x % 2 ^ 52 :=
    (Nat.mod_mod_of_dvd _ (pow_dvd_pow 2 (by decide : 52 ≤ 63))).symm
  have hhalf : half .double = 1022 := rfl
  apply BitVec.eq_of_toNat_eq
  rw [toNat_word _ (by decide) (by rw [hhalf]; omega), BitVec.toNat_or, BitVec.toNat_and]
  have hmask := and_or_exponent_sign (n := x.toNat) (a := 63) (m := 52) (c := 1022) x.isLt
    (by decide) (by decide)
  have hmsb : x.toNat / 2 ^ 63 = x.msb.toNat := div_two_pow_of_msb (by decide) x
  refine hmask.trans ?_
  rw [hmsb, hlow, hhalf]
  cases x.msb <;> simp

/-- What `frexpf` returns. -/
theorem frexpf_word (x : BitVec 32) :
    x &&& 0x7fffff#32 ||| 0x3f000000#32 =
      word 32 false (half .single * 2 ^ 23 + pattern x % 2 ^ 23) := by
  have hmod := Nat.mod_lt (pattern x) (Nat.two_pow_pos 23)
  have hlow : x.toNat % 2 ^ 23 = pattern x % 2 ^ 23 :=
    (Nat.mod_mod_of_dvd _ (pow_dvd_pow 2 (by decide : 23 ≤ 31))).symm
  have hhalf : half .single = 126 := rfl
  apply BitVec.eq_of_toNat_eq
  rw [toNat_word _ (by decide) (by rw [hhalf]; omega), BitVec.toNat_or, BitVec.toNat_and]
  refine (and_or_exponent x.toNat 23 126).trans ?_
  rw [hlow, hhalf]
  simp

theorem toInt_sub_bias {e b : BitVec 32} (he : e.toNat < 2 ^ 11) (hb : b.toNat < 2 ^ 11) :
    (e - b).toInt = (e.toNat : ℤ) - b.toNat := by
  rw [BitVec.toInt_sub, BitVec.toInt_eq_toNat_of_lt (by omega),
    BitVec.toInt_eq_toNat_of_lt (by omega)]
  apply Int.bmod_eq_of_le <;> omega

/-- What `frexp` stores. -/
theorem frexp_exponent (x : BitVec 64) :
    ((((x &&& 0x7ff0000000000000#64) >>> 52).setWidth 32 : BitVec 32) - 1022#32).toInt =
      ((pattern x / 2 ^ 52 : ℕ) : ℤ) - half .double := by
  have hfield : ((x &&& 0x7ff0000000000000#64) >>> 52).toNat = pattern x / 2 ^ 52 := by
    rw [BitVec.toNat_ushiftRight, BitVec.toNat_and]
    exact and_shiftRight_exponent x.toNat 52 11
  have hlt : pattern x / 2 ^ 52 < 2 ^ 11 :=
    Nat.div_lt_of_lt_mul (Nat.mod_lt _ (Nat.two_pow_pos _))
  have hwidth : (((x &&& 0x7ff0000000000000#64) >>> 52).setWidth 32 : BitVec 32).toNat =
      pattern x / 2 ^ 52 := by
    rw [BitVec.toNat_setWidth, hfield, Nat.mod_eq_of_lt (hlt.trans (by decide))]
  rw [toInt_sub_bias (by rw [hwidth]; exact hlt) (by decide), hwidth]
  rfl

/-- What `frexpf` stores. -/
theorem frexpf_exponent (x : BitVec 32) :
    (((x &&& 0x7f800000#32) >>> 23) - 126#32).toInt =
      ((pattern x / 2 ^ 23 : ℕ) : ℤ) - half .single := by
  have hfield : ((x &&& 0x7f800000#32) >>> 23).toNat = pattern x / 2 ^ 23 := by
    rw [BitVec.toNat_ushiftRight, BitVec.toNat_and]
    exact and_shiftRight_exponent x.toNat 23 8
  have hlt : pattern x / 2 ^ 23 < 2 ^ 8 :=
    Nat.div_lt_of_lt_mul (Nat.mod_lt _ (Nat.two_pow_pos _))
  rw [toInt_sub_bias (by rw [hfield]; exact hlt.trans (by decide)) (by decide), hfield]
  rfl

/-! ### When they recompose -/

theorem signed_eq_mul_iff (F : FloatFormat) {neg neg' : Bool} {n n' : ℕ} {c : ℚ} (hc : 0 < c)
    (hn : n ≠ 0) :
    F.signed neg n = F.signed neg' n' * c ↔ neg = neg' ∧ F.mag n = F.mag n' * c := by
  have hpos := F.mag_pos hn
  have hnonneg : 0 ≤ F.mag n' * c := mul_nonneg (F.mag_nonneg n') hc.le
  cases neg <;> cases neg' <;> simp only [signed, if_true, if_false, Bool.false_eq_true,
    reduceCtorEq, true_and, false_and, iff_false]
  · intro h
    linarith
  · intro h
    linarith
  · constructor <;> intro h <;> linarith

theorem half_lt_infinity {F : FloatFormat} (hF : 3 ≤ F.exponent) {i : ℕ} (hi : i < 2 ^ F.mantissa) :
    half F * 2 ^ F.mantissa + i < F.infinity := by
  have hpow : 2 ^ 2 ≤ 2 ^ (F.exponent - 1) := Nat.pow_le_pow_right (by decide) (by omega)
  have hdouble : 2 ^ F.exponent = 2 * 2 ^ (F.exponent - 1) := by
    rw [← pow_succ', Nat.sub_add_cancel (by omega)]
  have hle : (half F + 1) * 2 ^ F.mantissa ≤ (2 ^ F.exponent - 1) * 2 ^ F.mantissa := by
    apply Nat.mul_le_mul_right
    unfold half
    omega
  rw [Nat.add_mul, Nat.one_mul] at hle
  exact (Nat.add_lt_add_left hi _).trans_le hle

theorem storeInt_return_iff {α : Type} (m m' : Memory) (addr e : BitVec 32) (r r' : α) :
    (do storeInt addr e; return r : MemM α) m = .ok r' m' ↔
      Writable m addr 4 ∧ r = r' ∧ m' = m.write addr.toNat (leBytes 4 e) := by
  have hiff := fun m₁ => storeBytes_iff m m₁ addr (leBytes 4 e)
  simp only [bind, EStateM.bind, storeInt]
  cases hstore : storeBytes addr (leBytes 4 e) m with
  | ok u m₁ =>
      obtain ⟨hw, rfl⟩ := (hiff m₁).mp hstore
      rw [length_leBytes] at hw
      constructor
      · intro h
        cases h
        exact ⟨hw, rfl, rfl⟩
      · rintro ⟨-, rfl, rfl⟩
        rfl
  | error err m₁ =>
      constructor
      · intro h
        cases h
      · rintro ⟨hw, -, -⟩
        have hok := (hiff _).mpr ⟨by rwa [length_leBytes], rfl⟩
        rw [hstore] at hok
        cases hok

/-- A function that sets the exponent field to `half`, stores the distance to it and gives the
result the sign `neg`. -/
theorem splitsExponent_iff {F : FloatFormat} (hF : 3 ≤ F.exponent) {w : ℕ} (hw : F.Fits w)
    {f : BitVec w → BitVec 32 → MemM (BitVec w)} {m : Memory} {x : BitVec w} {exp e : BitVec 32}
    {neg : Bool} (hne : F.ofBits x ≠ 0)
    (heq : f x exp m = (do
      storeInt exp e
      return word w neg (half F * 2 ^ F.mantissa + pattern x % 2 ^ F.mantissa) : MemM _) m)
    (he : e.toInt = ((pattern x / 2 ^ F.mantissa : ℕ) : ℤ) - half F) :
    SplitsExponent F f m x exp ↔ Writable m exp 4 ∧ F.Normal x ∧ x.msb = neg := by
  have hmod := Nat.mod_lt (pattern x) (Nat.two_pow_pos F.mantissa)
  have hlt := half_lt_infinity hF hmod
  have hroom := hlt.trans hw.2
  have hvalue := F.ofBits_word neg hw.1 hroom
  have hzero : pattern x ≠ 0 := mt (F.ofBits_eq_zero_iff x).mpr hne
  have hrecompose : F.ofBits x = F.ofBits (word w neg
      (half F * 2 ^ F.mantissa + pattern x % 2 ^ F.mantissa)) * 2 ^ e.toInt ↔
        x.msb = neg ∧ F.Normal x := by
    rw [hvalue, he, ofBits, signed_eq_mul_iff F (by positivity) hzero, mag_eq_mag_half_iff hF]
    rfl
  unfold SplitsExponent
  constructor
  · rintro ⟨r, m', e', hok, hholds, -, hsplit, -, -⟩
    rw [heq, storeInt_return_iff] at hok
    obtain ⟨hwritable, rfl, rfl⟩ := hok
    have hstored : e = e' := leBytes_injective (n := 4) (by decide)
      ((holds_write hwritable.1 (by simpa using hwritable.2)).unique hholds (by simp))
    rw [← hstored, hrecompose] at hsplit
    exact ⟨hwritable, hsplit.2, hsplit.1⟩
  · rintro ⟨hwritable, hnormal, hsign⟩
    refine ⟨_, _, e, ?_, holds_write hwritable.1 (by simpa using hwritable.2), ?_,
      hrecompose.mpr ⟨hsign, hnormal⟩, ?_⟩
    · rw [heq, storeInt_return_iff]
      exact ⟨hwritable, rfl, rfl⟩
    · rw [FloatFormat.Finite, pattern_word neg hw.1 hroom]
      exact hlt
    · rw [hvalue, abs_signed]
      exact mag_half_bounds hF hmod

theorem fits_double : FloatFormat.double.Fits 64 := ⟨by decide, by decide⟩

theorem fits_single : FloatFormat.single.Fits 32 := ⟨by decide, by decide⟩

/-- `frexp` takes the fields of a subnormal number for those of a normal one. -/
theorem frexp_iff (m : Memory) {x : BitVec 64} (exp : BitVec 32)
    (hx : FloatFormat.double.Finite x) (hne : FloatFormat.double.ofBits x ≠ 0) :
    SplitsExponent .double frexp m x exp ↔ Writable m exp 4 ∧ FloatFormat.double.Normal x := by
  have hzero : pattern x ≠ 0 := mt (ofBits_eq_zero_iff _ x).mpr hne
  have hspecial : (isNaN .double x || isInfinite .double x || isZero x) = false := by
    have hlt : pattern x < FloatFormat.double.infinity := hx
    simp [isNaN, isInfinite, isZero, hzero, hlt.le, hlt.ne]
  have heq : frexp x exp m = (do
      storeInt exp (((x &&& 0x7ff0000000000000#64) >>> 52).setWidth 32 - 1022#32)
      return word 64 x.msb (half .double * 2 ^ 52 + pattern x % 2 ^ 52) : MemM _) m := by
    have hnot : isZero x = false := by simp [isZero, hzero]
    rw [← frexp_word, frexp, hspecial, hnot]
    rfl
  have hiff := splitsExponent_iff (F := .double) (by decide) fits_double hne heq
    (frexp_exponent x)
  rw [hiff]
  simp

/-- `frexpf` drops the sign, too. -/
theorem frexpf_iff (m : Memory) {x : BitVec 32} (exp : BitVec 32)
    (hx : FloatFormat.single.Finite x) (hne : FloatFormat.single.ofBits x ≠ 0) :
    SplitsExponent .single frexpf m x exp ↔
      Writable m exp 4 ∧ FloatFormat.single.Normal x ∧ x.msb = false := by
  have hzero : pattern x ≠ 0 := mt (ofBits_eq_zero_iff _ x).mpr hne
  have hspecial : (isNaN .single x || isInfinite .single x || isZero x) = false := by
    have hlt : pattern x < FloatFormat.single.infinity := hx
    simp [isNaN, isInfinite, isZero, hzero, hlt.le, hlt.ne]
  have heq : frexpf x exp m = (do
      storeInt exp (((x &&& 0x7f800000#32) >>> 23) - 126#32)
      return word 32 false (half .single * 2 ^ 23 + pattern x % 2 ^ 23) : MemM _) m := by
    have hnot : isZero x = false := by simp [isZero, hzero]
    rw [← frexpf_word, frexpf, hspecial, hnot]
    rfl
  exact splitsExponent_iff (F := .single) (by decide) fits_single hne heq (frexpf_exponent x)

/-! ## Integral parts -/

theorem abs_truncate (q : ℚ) : |(truncate q : ℚ)| = ⌊|q|⌋₊ := by
  unfold truncate
  split_ifs with h
  · rw [abs_of_nonneg h, ← Int.cast_natCast, Int.natCast_floor_eq_floor h, abs_of_nonneg]
    exact_mod_cast Int.floor_nonneg.mpr h
  · have hneg : q ≤ 0 := (not_le.mp h).le
    rw [abs_of_nonpos hneg, ← Int.cast_natCast,
      Int.natCast_floor_eq_floor (neg_nonneg.mpr hneg), Int.floor_neg, abs_of_nonpos]
    · push_cast
      rfl
    · exact_mod_cast Int.ceil_le.mpr (by simpa using hneg)

theorem abs_sub_truncate (q : ℚ) : |q - truncate q| = |q| - ⌊|q|⌋₊ := by
  unfold truncate
  split_ifs with h
  · rw [abs_of_nonneg h, ← Int.cast_natCast, Int.natCast_floor_eq_floor h,
      abs_of_nonneg (sub_nonneg.mpr (Int.floor_le q))]
  · have hneg : q ≤ 0 := (not_le.mp h).le
    rw [abs_of_nonpos hneg, ← Int.cast_natCast,
      Int.natCast_floor_eq_floor (neg_nonneg.mpr hneg), Int.floor_neg,
      abs_of_nonpos (sub_nonpos.mpr (Int.le_ceil q))]
    push_cast
    ring

theorem abs_sub_truncate_lt (q : ℚ) : |q - truncate q| < 1 := by
  rw [abs_sub_truncate]
  linarith [Nat.lt_floor_add_one |q|]

theorem abs_truncate_le (q : ℚ) : |(truncate q : ℚ)| ≤ |q| := by
  rw [abs_truncate]
  exact Nat.floor_le (abs_nonneg q)

section integral

variable {F : FloatFormat} (hemin : F.emin ≤ 0) {w : ℕ} (hw : F.Fits w)

theorem abs_ofBits_lt {x : BitVec w} (hx : F.Finite x) : |F.ofBits x| < F.mag F.infinity := by
  rw [abs_ofBits]
  exact F.strictMono_mag hx

include hw in
/-- The difference is exact if it is a number of the format. -/
theorem ofBits_sub {x y : BitVec w} (hx : F.Finite x)
    (hshort : F.Representable (F.ofBits x - F.ofBits y))
    (hlt : |F.ofBits x - F.ofBits y| < F.mag F.infinity) :
    F.Finite (sub F x y) ∧ F.ofBits (sub F x y) = F.ofBits x - F.ofBits y := by
  rw [sub, if_neg (not_not.mpr hx)]
  split_ifs with h
  · have hzero : 0 < F.infinity := (Nat.zero_le _).trans_lt hx
    have hroom := hzero.trans hw.2
    refine ⟨?_, ?_⟩
    · rw [FloatFormat.Finite, pattern_word _ hw.1 hroom]
      exact hzero
    · rw [F.ofBits_word _ hw.1 hroom, h, sub_self, signed, mag_zero]
      simp
  · exact F.ofBits_toBits hw hshort hlt

/-- What the cast and its inverse make of a number; `modf` stores it. -/
def integralPart (F : FloatFormat) {w : ℕ} (x : BitVec w) : BitVec w :=
  F.toBits w (castInt F x).toInt

include hemin hw in
/-- With the truncation in the cell, the difference is exact. -/
theorem splitsInteger_iff {n : ℕ} (hn : w ≤ 8 * n) (m : Memory) {x : BitVec w} (iptr : BitVec 32)
    (hx : F.Finite x) :
    SplitsInteger F (modfBy F fun addr v => storeBytes addr (leBytes n v)) n m x iptr ↔
      Writable m iptr n ∧ F.ofBits (integralPart F x) = truncate (F.ofBits x) := by
  have hstore := fun m' => storeBytes_iff m m' iptr (leBytes n (integralPart F x))
  rw [length_leBytes] at hstore
  have hmodf : ∀ r m', modfBy F (fun addr v => storeBytes addr (leBytes n v)) x iptr m = .ok r m' ↔
      storeBytes iptr (leBytes n (integralPart F x)) m = .ok () m' ∧
        sub F x (integralPart F x) = r := by
    intro r m'
    simp only [modfBy, integralPart, bind, EStateM.bind]
    cases storeBytes iptr (leBytes n (F.toBits w (castInt F x).toInt)) m with
    | ok u m₁ =>
        constructor
        · intro h
          cases h
          exact ⟨rfl, rfl⟩
        · rintro ⟨h, rfl⟩
          cases h
          rfl
    | error e m₁ =>
        constructor
        · intro h
          cases h
        · rintro ⟨h, -⟩
          cases h
  have habs := abs_ofBits_lt hx
  unfold SplitsInteger
  constructor
  · rintro ⟨r, m', i, hok, hholds, -, -, htrunc, -, -⟩
    rw [hmodf, hstore] at hok
    obtain ⟨⟨hwritable, rfl⟩, -⟩ := hok
    have hstored : integralPart F x = i := leBytes_injective hn
      ((holds_write hwritable.1 (by simpa using hwritable.2)).unique hholds (by simp))
    exact ⟨hwritable, by rw [hstored, htrunc]⟩
  · rintro ⟨hwritable, htrunc⟩
    have hfloor := (F.representable_ofBits x).floor F hemin
    have hlt : |F.ofBits x - truncate (F.ofBits x)| < F.mag F.infinity := by
      rw [abs_sub_truncate]
      have := Nat.cast_nonneg (α := ℚ) ⌊|F.ofBits x|⌋₊
      linarith
    have hshort : F.Representable (F.ofBits x - truncate (F.ofBits x)) := by
      refine hfloor.2.of_abs_eq F ?_
      rw [← abs_sub_truncate, abs_abs]
    rw [← htrunc] at hlt hshort
    obtain ⟨hfinite, hvalue⟩ := ofBits_sub hw hx hshort hlt
    refine ⟨_, _, integralPart F x, (hmodf _ _).mpr ⟨(hstore _).mpr ⟨hwritable, rfl⟩, rfl⟩,
      holds_write hwritable.1 (by simpa using hwritable.2), ?_, hfinite, htrunc, hvalue, ?_⟩
    · have hint : F.mag (pattern (integralPart F x)) < F.mag F.infinity := by
        rw [← abs_ofBits, htrunc]
        exact (abs_truncate_le _).trans_lt habs
      exact F.strictMono_mag.lt_iff_lt.mp hint
    · rw [htrunc]
      exact abs_sub_truncate_lt _

end integral

/-! ### The range of the cast -/

/-- The cast as a number. -/
theorem toInt_castInt {F : FloatFormat} {w : ℕ} {x : BitVec w} (hx : F.Finite x) :
    (castInt F x).toInt = max (-2 ^ 31) (min (2 ^ 31 - 1) (truncate (F.ofBits x))) := by
  have hnan : isNaN F x = false := by
    have hlt : pattern x < F.infinity := hx
    simp [isNaN, hlt.le]
  rw [castInt, hnan]
  simp only [Bool.false_eq_true, if_false]
  rw [BitVec.toInt_ofInt]
  apply Int.bmod_eq_of_le <;> omega

theorem truncate_le_iff {q : ℚ} {k : ℤ} (hk : 0 ≤ k) : truncate q ≤ k ↔ q < k + 1 := by
  unfold truncate
  split_ifs with h
  · rw [← Int.lt_add_one_iff, Int.floor_lt]
    push_cast
    rfl
  · have hneg : q < 0 := not_le.mp h
    have hk' : (0 : ℚ) ≤ k := by exact_mod_cast hk
    constructor
    · intro _
      linarith
    · intro _
      exact (Int.ceil_le.mpr (by simpa using hneg.le)).trans hk

theorem le_truncate_iff {q : ℚ} {k : ℤ} (hk : k ≤ 0) : k ≤ truncate q ↔ k - 1 < q := by
  unfold truncate
  split_ifs with h
  · have hk' : (k : ℚ) ≤ 0 := by exact_mod_cast hk
    constructor
    · intro _
      linarith
    · intro _
      exact hk.trans (Int.floor_nonneg.mpr h)
  · rw [← Int.sub_one_lt_iff, Int.lt_ceil]
    push_cast
    rfl

/-- Saturation makes the difference. -/
theorem clamp_eq_iff (k : ℤ) :
    max (-2 ^ 31) (min (2 ^ 31 - 1) k) = k ↔ -2 ^ 31 ≤ k ∧ k ≤ 2 ^ 31 - 1 := by
  omega

theorem truncate_in_range_iff (q : ℚ) :
    -2 ^ 31 ≤ truncate q ∧ truncate q ≤ 2 ^ 31 - 1 ↔ -2 ^ 31 - 1 < q ∧ q < 2 ^ 31 := by
  rw [le_truncate_iff (by norm_num), truncate_le_iff (by norm_num)]
  norm_num

/-- An `int` is a number of type `double`. -/
theorem ofBits_integralPart_double {x : BitVec 64} (hx : FloatFormat.double.Finite x) :
    FloatFormat.double.ofBits (integralPart .double x) = (castInt .double x).toInt := by
  have hrange := toInt_castInt hx
  have habs : |(castInt .double x).toInt| < 2 ^ 53 := by
    rw [hrange, abs_lt]
    omega
  refine (ofBits_toBits _ fits_double (representable_intCast _ (by decide) habs) ?_).2
  rw [mag_infinity _ (by decide)]
  calc |((castInt .double x).toInt : ℚ)| < 2 ^ 53 := by exact_mod_cast habs
    _ ≤ 2 ^ 2 ^ (FloatFormat.double.exponent - 1) := pow_le_pow_right₀ (by norm_num) (by decide)

theorem modf_iff (m : Memory) {x : BitVec 64} (iptr : BitVec 32)
    (hx : FloatFormat.double.Finite x) :
    SplitsInteger .double modf 8 m x iptr ↔
      Writable m iptr 8 ∧ -2 ^ 31 - 1 < FloatFormat.double.ofBits x ∧
        FloatFormat.double.ofBits x < 2 ^ 31 := by
  have hiff := splitsInteger_iff (F := .double) (by decide) fits_double (n := 8) (by decide) m
    iptr hx
  rw [ofBits_integralPart_double hx, toInt_castInt hx, Int.cast_inj, clamp_eq_iff,
    truncate_in_range_iff] at hiff
  exact hiff

/-! ### Integers of type `float` -/

theorem truncate_of_large {F : FloatFormat} {w : ℕ} {x : BitVec w}
    (h : 2 ^ (F.mantissa + 1) ≤ |F.ofBits x|) : (truncate (F.ofBits x) : ℚ) = F.ofBits x := by
  have hfloor := (F.representable_ofBits x).floor_of_large F h
  have hdiff := abs_sub_truncate (F.ofBits x)
  rw [hfloor, sub_self, abs_eq_zero, sub_eq_zero] at hdiff
  exact hdiff.symm

/-- What is in range is truncated to a number of type `float`. -/
theorem ofBits_integralPart_of_range {x : BitVec 32} (hx : FloatFormat.single.Finite x)
    (hlo : -2 ^ 31 - 1 < FloatFormat.single.ofBits x) (hhi : FloatFormat.single.ofBits x < 2 ^ 31) :
    FloatFormat.single.ofBits (integralPart .single x) =
      truncate (FloatFormat.single.ofBits x) := by
  have hcast := toInt_castInt hx
  rw [(clamp_eq_iff _).mpr ((truncate_in_range_iff _).mpr ⟨hlo, hhi⟩)] at hcast
  have hshort : FloatFormat.single.Representable (truncate (FloatFormat.single.ofBits x)) := by
    refine ((representable_ofBits _ x).floor _ (by decide)).1.of_abs_eq _ ?_
    rw [abs_truncate, Nat.abs_cast]
  have hlt := (abs_truncate_le _).trans_lt (abs_ofBits_lt hx)
  rw [integralPart, hcast]
  exact (ofBits_toBits _ fits_single hshort hlt).2

/-- Rounding to `float` takes the greatest `int` to the next power of two. -/
theorem ofBits_toBits_max :
    FloatFormat.single.ofBits (FloatFormat.single.toBits 32 ((2 ^ 31 - 1 : ℤ) : ℚ)) = 2 ^ 31 := by
  have hnearest : FloatFormat.single.nearest ((2 ^ 31 - 1 : ℤ) : ℚ) =
      158 * 2 ^ FloatFormat.single.mantissa + 0 := by decide +kernel
  have hroom : 158 * 2 ^ FloatFormat.single.mantissa + 0 < 2 ^ (32 - 1) := by decide
  have hemin : FloatFormat.single.emin = -149 := by decide
  rw [toBits, hnearest, ofBits_word _ _ (by decide) hroom, signed,
    mag_normal _ (by decide) (by decide), hemin]
  norm_num [FloatFormat.single]

theorem ofBits_toBits_min :
    FloatFormat.single.ofBits (FloatFormat.single.toBits 32 ((-2 ^ 31 : ℤ) : ℚ)) = -2 ^ 31 := by
  have hnearest : FloatFormat.single.nearest ((-2 ^ 31 : ℤ) : ℚ) =
      158 * 2 ^ FloatFormat.single.mantissa + 0 := by decide +kernel
  have hroom : 158 * 2 ^ FloatFormat.single.mantissa + 0 < 2 ^ (32 - 1) := by decide
  have hemin : FloatFormat.single.emin = -149 := by decide
  rw [toBits, hnearest, ofBits_word _ _ (by decide) hroom, signed,
    mag_normal _ (by decide) (by decide), hemin]
  norm_num [FloatFormat.single]

theorem modff_iff (m : Memory) {x : BitVec 32} (iptr : BitVec 32)
    (hx : FloatFormat.single.Finite x) :
    SplitsInteger .single modff 4 m x iptr ↔
      Writable m iptr 4 ∧ -2 ^ 31 ≤ FloatFormat.single.ofBits x ∧
        FloatFormat.single.ofBits x ≤ 2 ^ 31 := by
  have hiff := splitsInteger_iff (F := .single) (by decide) fits_single (n := 4) (by decide) m
    iptr hx
  refine hiff.trans (and_congr_right fun _ => ?_)
  have hcast := toInt_castInt hx
  have hlarge : 2 ^ 24 ≤ |FloatFormat.single.ofBits x| →
      (truncate (FloatFormat.single.ofBits x) : ℚ) = FloatFormat.single.ofBits x :=
    fun h => truncate_of_large h
  rcases lt_or_ge (FloatFormat.single.ofBits x) (-2 ^ 31) with hbelow | hlo
  · -- saturated at the least `int`
    have htrunc := hlarge (by rw [abs_of_neg (by linarith)]; linarith)
    have hint : truncate (FloatFormat.single.ofBits x) < -2 ^ 31 := by
      rw [← htrunc] at hbelow
      exact_mod_cast hbelow
    have hmin : (castInt .single x).toInt = -2 ^ 31 := by
      rw [hcast]
      omega
    rw [integralPart, hmin, ofBits_toBits_min, htrunc]
    constructor
    · intro h
      linarith
    · intro h
      linarith [h.1]
  · rcases lt_trichotomy (FloatFormat.single.ofBits x) (2 ^ 31) with hhi | heq | habove
    · rw [ofBits_integralPart_of_range hx (by linarith) hhi]
      exact ⟨fun _ => ⟨hlo, hhi.le⟩, fun _ => rfl⟩
    · -- the greatest `int` is rounded up
      have htrunc := hlarge (by rw [heq]; norm_num)
      have hint : truncate (FloatFormat.single.ofBits x) = 2 ^ 31 := by
        rw [heq] at htrunc ⊢
        exact_mod_cast htrunc
      have hmax : (castInt .single x).toInt = 2 ^ 31 - 1 := by
        rw [hcast]
        omega
      rw [integralPart, hmax, ofBits_toBits_max, htrunc]
      exact ⟨fun _ => ⟨hlo, heq.le⟩, fun _ => heq.symm⟩
    · have htrunc := hlarge (by rw [abs_of_pos (by linarith)]; linarith)
      have hint : 2 ^ 31 < truncate (FloatFormat.single.ofBits x) := by
        rw [← htrunc] at habove
        exact_mod_cast habove
      have hmax : (castInt .single x).toInt = 2 ^ 31 - 1 := by
        rw [hcast]
        omega
      rw [integralPart, hmax, ofBits_toBits_max, htrunc]
      constructor
      · intro h
        linarith
      · intro h
        linarith [h.2]

/-! ## All four -/

/-- `frexp` needs a normal number and `frexpf` a positive one as well; `modf` and `modff` need one
whose integral part is an `int`, up to rounding. -/
theorem splits_iff (m : Memory) (addr : BitVec 32) :
    (∀ x : BitVec 64, FloatFormat.double.Finite x → FloatFormat.double.ofBits x ≠ 0 →
      (SplitsExponent .double frexp m x addr ↔
        Writable m addr 4 ∧ FloatFormat.double.Normal x)) ∧
    (∀ x : BitVec 32, FloatFormat.single.Finite x → FloatFormat.single.ofBits x ≠ 0 →
      (SplitsExponent .single frexpf m x addr ↔
        Writable m addr 4 ∧ FloatFormat.single.Normal x ∧ x.msb = false)) ∧
    (∀ x : BitVec 64, FloatFormat.double.Finite x →
      (SplitsInteger .double modf 8 m x addr ↔
        Writable m addr 8 ∧ -2 ^ 31 - 1 < FloatFormat.double.ofBits x ∧
          FloatFormat.double.ofBits x < 2 ^ 31)) ∧
    (∀ x : BitVec 32, FloatFormat.single.Finite x →
      (SplitsInteger .single modff 4 m x addr ↔
        Writable m addr 4 ∧ -2 ^ 31 ≤ FloatFormat.single.ofBits x ∧
          FloatFormat.single.ofBits x ≤ 2 ^ 31)) :=
  ⟨fun _ hx hne => frexp_iff m addr hx hne, fun _ hx hne => frexpf_iff m addr hx hne,
    fun _ hx => modf_iff m addr hx, fun _ hx => modff_iff m addr hx⟩

theorem writable_initial {n : ℕ} (hn : n ≤ 8) : Writable Memory.initial 16#32 n := by
  refine ⟨(rfl : (Memory.initial.byte 16).isSome = true), ?_⟩
  have haddr : (16#32).toNat % pageSize = 16 := by decide
  rw [InPage, haddr]
  exact le_trans (by omega) (by decide : 24 ≤ pageSize)

theorem ofBits_ne_zero {F : FloatFormat} {w : ℕ} {x : BitVec w} (h : pattern x ≠ 0) :
    F.ofBits x ≠ 0 :=
  mt (F.ofBits_eq_zero_iff x).mp h

/-- `frexp` of `-3`. -/
theorem splits_frexp : SplitsExponent .double frexp Memory.initial 0xc008000000000000#64 16#32 :=
  ((splits_iff Memory.initial 16#32).1 0xc008000000000000#64 (by decide)
    (ofBits_ne_zero (by decide))).mpr ⟨writable_initial (by decide), by decide⟩

theorem ofBits_two_pow_31 : FloatFormat.double.ofBits 0x41e0000000000000#64 = 2 ^ 31 := by
  have hpattern : pattern 0x41e0000000000000#64 =
      1054 * 2 ^ FloatFormat.double.mantissa + 0 := by decide
  have hmsb : (0x41e0000000000000#64).msb = false := by decide
  have hemin : FloatFormat.double.emin = -1074 := by decide
  rw [ofBits, hmsb, hpattern, signed, mag_normal _ (by decide) (by decide), hemin]
  norm_num [FloatFormat.double]

/-- `frexpf` of `-1`, `frexp` of the least positive `double`, and `modf` of `2 ^ 31`. -/
theorem not_splits :
    ¬ SplitsExponent .single frexpf Memory.initial 0xbf800000#32 16#32 ∧
      ¬ SplitsExponent .double frexp Memory.initial 1#64 16#32 ∧
      ¬ SplitsInteger .double modf 8 Memory.initial 0x41e0000000000000#64 16#32 := by
  refine ⟨?_, ?_, ?_⟩
  · rw [frexpf_iff _ _ (by decide) (ofBits_ne_zero (by decide))]
    rintro ⟨-, -, hsign⟩
    exact absurd hsign (by decide)
  · rw [frexp_iff _ _ (by decide) (ofBits_ne_zero (by decide))]
    rintro ⟨-, hnormal⟩
    exact absurd hnormal (by decide)
  · rw [modf_iff _ _ (by decide), ofBits_two_pow_31]
    rintro ⟨-, -, hlt⟩
    exact lt_irrefl _ hlt

end Llxvm.Runtime.Math
