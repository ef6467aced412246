import Llxvm.Lib.ByteReverse
import Llxvm.Lib.SignExtend
import Llxvm.Runtime.Memory
import Mathlib.Tactic.IntervalCases

/-!
# Emulated instructions

`llxvm.runtime.Instruction`: the integer instructions of LLVM that the JVM lacks.
Java promotes `byte` and `short` operands to `int`, so the overloads for the narrow
types share one body with the promoted width as a parameter.
-/

namespace Llxvm.Runtime

/-- Java's integer division. -/
def javaDiv {w : ℕ} (op1 op2 : BitVec w) : Except Throwable (BitVec w) :=
  if op2 = 0 then .error .arithmeticException else .ok (op1.sdiv op2)

/-- Java's integer remainder. -/
def javaRem {w : ℕ} (op1 op2 : BitVec w) : Except Throwable (BitVec w) :=
  if op2 = 0 then .error .arithmeticException else .ok (op1.srem op2)

namespace Instruction

/-! ## Comparisons -/

/-- The predicates of `icmp`. -/
inductive Predicate where
  | eq | ne | sgt | sge | slt | sle | ugt | uge | ult | ule
  deriving DecidableEq

/-- The unsigned comparisons exchange the operands when the signs differ. -/
def icmpUnsigned {w : ℕ} (cmp : BitVec w → BitVec w → Bool) (op1 op2 : BitVec w) : Bool :=
  if 0 ≤ (op1 ^^^ op2).toInt then cmp op1 op2 else cmp op2 op1

/-- `icmp_*`, for `int` and `long`. -/
def icmp {w : ℕ} : Predicate → BitVec w → BitVec w → Bool
  | .eq, op1, op2 => op1 == op2
  | .ne, op1, op2 => op1 != op2
  | .sgt, op1, op2 => op2.slt op1
  | .sge, op1, op2 => op2.sle op1
  | .slt, op1, op2 => op1.slt op2
  | .sle, op1, op2 => op1.sle op2
  | .ugt, op1, op2 => icmpUnsigned (fun a b => b.slt a) op1 op2
  | .uge, op1, op2 => icmpUnsigned (fun a b => b.sle a) op1 op2
  | .ult, op1, op2 => icmpUnsigned (fun a b => a.slt b) op1 op2
  | .ule, op1, op2 => icmpUnsigned (fun a b => a.sle b) op1 op2

/-! ## Zero extension -/

/-- The body of `zext_i32` and `zext_i64` for the types `byte`, `short` and `int`. -/
def zextBy {w : ℕ} (z : ℕ) (value : BitVec w) : BitVec z :=
  value.signExtend z &&& BitVec.ofNat z (2 ^ w - 1)

def zextI32Boolean (value : Bool) : BitVec 32 := if value then 1#32 else 0#32
def zextI32Byte (value : BitVec 8) : BitVec 32 := zextBy 32 value
def zextI32Short (value : BitVec 16) : BitVec 32 := zextBy 32 value
def zextI64Boolean (value : Bool) : BitVec 64 := if value then 1#64 else 0#64
def zextI64Byte (value : BitVec 8) : BitVec 64 := zextBy 64 value
def zextI64Short (value : BitVec 16) : BitVec 64 := zextBy 64 value
def zextI64Int (value : BitVec 32) : BitVec 64 := zextBy 64 value

theorem zextBy_eq {w z : ℕ} (value : BitVec w) : zextBy z value = value.setWidth z := by
  apply BitVec.eq_of_getLsbD_eq
  intro i hi
  have hmask : (BitVec.ofNat z (2 ^ w - 1)).getLsbD i = decide (i < w) := by
    rw [BitVec.getLsbD_ofNat, Nat.testBit_two_pow_sub_one]
    simp [hi]
  rw [zextBy, BitVec.getLsbD_and, hmask, BitVec.getLsbD_signExtend, BitVec.getLsbD_setWidth]
  by_cases hw : i < w
  · simp [hi, hw]
  · simp [hw, BitVec.getLsbD_of_ge value i (by omega)]

/-! ## Unsigned division -/

/-- The overloads of `udiv` and `urem` for `byte`, `short` and `int`: `p` is the width
after promotion, `z` the width of the zero extension. -/
def divideBy {w : ℕ} (p z : ℕ)
    (op : {v : ℕ} → BitVec v → BitVec v → Except Throwable (BitVec v)) (op1 op2 : BitVec w) :
    Except Throwable (BitVec w) :=
  if 0 ≤ (op1.signExtend p ||| op2.signExtend p).toInt then
    (op (op1.signExtend p) (op2.signExtend p)).map (BitVec.setWidth w)
  else (op (zextBy z op1) (zextBy z op2)).map (BitVec.setWidth w)

def udivByte (op1 op2 : BitVec 8) := divideBy 32 32 javaDiv op1 op2
def udivShort (op1 op2 : BitVec 16) := divideBy 32 32 javaDiv op1 op2
def udivInt (op1 op2 : BitVec 32) := divideBy 32 64 javaDiv op1 op2
def uremByte (op1 op2 : BitVec 8) := divideBy 32 32 javaRem op1 op2
def uremShort (op1 op2 : BitVec 16) := divideBy 32 32 javaRem op1 op2
def uremInt (op1 op2 : BitVec 32) := divideBy 32 64 javaRem op1 op2

/-- `udiv(long, long)`: there is no wider type, so a big dividend is halved first. -/
def udivLong (op1 op2 : BitVec 64) : Except Throwable (BitVec 64) :=
  if 0 ≤ op1.toInt then
    if 0 ≤ op2.toInt then javaDiv op1 op2 else .ok 0#64
  else if 0 ≤ op2.toInt then do
    let halfOp1 := op1 >>> 1
    let halfResult ← javaDiv halfOp1 op2
    if halfResult = 0#64 then return 1#64
    let halfRem := halfOp1 - op2 * halfResult
    let op1Parity := op1 &&& 1#64
    let rem := halfRem + halfRem + op1Parity
    let result := halfResult + halfResult
    return if op2.sle rem then result + 1#64 else result
  else .ok (if op2.sle op1 then 1#64 else 0#64)

def uremLong (op1 op2 : BitVec 64) : Except Throwable (BitVec 64) :=
  if 0 ≤ op1.toInt then
    if 0 ≤ op2.toInt then javaRem op1 op2 else .ok op1
  else if 0 ≤ op2.toInt then do
    let halfOp1 := op1 >>> 1
    let halfResult ← javaDiv halfOp1 op2
    if halfResult = 0#64 then return op1 - op2
    let halfRem := halfOp1 - op2 * halfResult
    let op1Parity := op1 &&& 1#64
    let rem := halfRem + halfRem + op1Parity
    return if op2.sle rem then rem - op2 else rem
  else .ok (if op2.sle op1 then op1 - op2 else op1)

/-- Signed division of values whose sign bits are clear is unsigned division. -/
theorem javaDiv_of_msb {w : ℕ} {a b : BitVec w} (ha : a.msb = false) (hb : b.msb = false) :
    javaDiv a b = if b = 0 then .error .arithmeticException else .ok (a / b) := by
  rw [javaDiv, BitVec.sdiv_eq, ha, hb]
  rfl

theorem javaRem_of_msb {w : ℕ} {a b : BitVec w} (ha : a.msb = false) (hb : b.msb = false) :
    javaRem a b = if b = 0 then .error .arithmeticException else .ok (a % b) := by
  rw [javaRem, BitVec.srem_eq, ha, hb]

theorem toInt_nonneg_iff {w : ℕ} (x : BitVec w) : 0 ≤ x.toInt ↔ x.msb = false := by
  rw [BitVec.msb_eq_toInt]
  simp

theorem msb_signExtend_of_le {w p : ℕ} (hw : 0 < w) (h : w ≤ p) (x : BitVec w) :
    (x.signExtend p).msb = x.msb := by
  rw [BitVec.msb_signExtend]
  split
  · next hlt =>
      have : w = p := by omega
      subst this
      simp [BitVec.getMsbD, BitVec.msb]
  · simp [show 0 < p by omega]

/-- Dividing the zero extensions and cutting back is dividing. -/
theorem setWidth_udiv_setWidth {w z : ℕ} (h : w ≤ z) (a b : BitVec w) :
    (a.setWidth z / b.setWidth z).setWidth w = a / b := by
  apply BitVec.eq_of_toNat_eq
  have hdiv : a.toNat / b.toNat ≤ a.toNat := Nat.div_le_self _ _
  rw [BitVec.toNat_setWidth, BitVec.toNat_udiv, BitVec.toNat_udiv,
    BitVec.toNat_setWidth_of_le h, BitVec.toNat_setWidth_of_le h]
  exact Nat.mod_eq_of_lt (hdiv.trans_lt a.isLt)

theorem setWidth_umod_setWidth {w z : ℕ} (h : w ≤ z) (a b : BitVec w) :
    (a.setWidth z % b.setWidth z).setWidth w = a % b := by
  apply BitVec.eq_of_toNat_eq
  have hmod : a.toNat % b.toNat ≤ a.toNat := Nat.mod_le _ _
  rw [BitVec.toNat_setWidth, BitVec.toNat_umod, BitVec.toNat_umod,
    BitVec.toNat_setWidth_of_le h, BitVec.toNat_setWidth_of_le h]
  exact Nat.mod_eq_of_lt (hmod.trans_lt a.isLt)

theorem setWidth_eq_zero_iff {w z : ℕ} (h : w ≤ z) (b : BitVec w) : b.setWidth z = 0 ↔ b = 0 := by
  constructor
  · intro hz
    have := congrArg BitVec.toNat hz
    rw [BitVec.toNat_setWidth, Nat.mod_eq_of_lt
      (b.isLt.trans_le (Nat.pow_le_pow_right (by decide) h))] at this
    exact BitVec.eq_of_toNat_eq (by simpa using this)
  · rintro rfl
    simp

section divideBy

variable {w p z : ℕ} {op : {v : ℕ} → BitVec v → BitVec v → Except Throwable (BitVec v)}
  {spec : {v : ℕ} → BitVec v → BitVec v → BitVec v}

/-- Both branches of the narrow overloads come down to the operation on zero extensions,
where the sign bits are clear. -/
theorem divideBy_eq (hw : 0 < w) (hp : w ≤ p) (hz : w < z)
    (hop : ∀ {v : ℕ} {a b : BitVec v}, a.msb = false → b.msb = false →
      op a b = if b = 0 then .error .arithmeticException else .ok (spec a b))
    (hspec : ∀ {v : ℕ}, w ≤ v → ∀ a b : BitVec w,
      (spec (a.setWidth v) (b.setWidth v)).setWidth w = spec a b) (a b : BitVec w) :
    divideBy p z op a b = if b = 0 then .error .arithmeticException else .ok (spec a b) := by
  have hwide : ∀ {v : ℕ}, w ≤ v → (a.setWidth v).msb = false → (b.setWidth v).msb = false →
      (op (a.setWidth v) (b.setWidth v)).map (BitVec.setWidth w) =
        if b = 0 then .error .arithmeticException else .ok (spec a b) := by
    intro v hv ha hb
    rw [hop ha hb]
    simp only [setWidth_eq_zero_iff hv]
    split
    · rfl
    · rw [Except.map, hspec hv]
  have hsigns : 0 ≤ (a.signExtend p ||| b.signExtend p).toInt ↔ a.msb = false ∧ b.msb = false := by
    rw [toInt_nonneg_iff, BitVec.msb_or, Bool.or_eq_false_iff, msb_signExtend_of_le hw hp,
      msb_signExtend_of_le hw hp]
  unfold divideBy
  split
  · next hnonneg =>
      obtain ⟨hma, hmb⟩ := hsigns.mp hnonneg
      have ha : a.signExtend p = a.setWidth p := BitVec.signExtend_eq_setWidth_of_msb_false hma
      have hb : b.signExtend p = b.setWidth p := BitVec.signExtend_eq_setWidth_of_msb_false hmb
      rw [ha, hb]
      apply hwide hp
      · rw [← ha, msb_signExtend_of_le hw hp, hma]
      · rw [← hb, msb_signExtend_of_le hw hp, hmb]
  · rw [zextBy_eq, zextBy_eq]
    have hmsb : ∀ x : BitVec w, (x.setWidth z).msb = false := by
      intro x
      rw [BitVec.msb_eq_getLsbD_last, BitVec.getLsbD_setWidth, BitVec.getLsbD_of_ge _ _ (by omega)]
      simp
    exact hwide hz.le (hmsb a) (hmsb b)

end divideBy

theorem divideBy_javaDiv {w p z : ℕ} (hw : 0 < w) (hp : w ≤ p) (hz : w < z) (a b : BitVec w) :
    divideBy p z javaDiv a b = if b = 0 then .error .arithmeticException else .ok (a / b) :=
  divideBy_eq hw hp hz javaDiv_of_msb (fun hv => setWidth_udiv_setWidth hv) a b

theorem divideBy_javaRem {w p z : ℕ} (hw : 0 < w) (hp : w ≤ p) (hz : w < z) (a b : BitVec w) :
    divideBy p z javaRem a b = if b = 0 then .error .arithmeticException else .ok (a % b) :=
  divideBy_eq hw hp hz javaRem_of_msb (fun hv => setWidth_umod_setWidth hv) a b

/-! ## The halving algorithm -/

/-- What the big-by-small branches compute, over natural numbers. -/
theorem half_division {A B : ℕ} (hA : A < 2 ^ 64) (hB : 0 < B) (hle : B ≤ A / 2) :
    A / B = 2 * (A / 2 / B) + (2 * (A / 2 % B) + A % 2) / B ∧
      A % B = (2 * (A / 2 % B) + A % 2) % B ∧ 2 * (A / 2 % B) + A % 2 < 2 ^ 63 ∧
      2 * (A / 2 % B) + A % 2 < 2 * B := by
  have hdecomp := Nat.div_add_mod (A / 2) B
  have hmod := Nat.mod_lt (A / 2) hB
  have hq : 1 ≤ A / 2 / B := (Nat.one_le_div_iff hB).mpr hle
  have hprod : B ≤ B * (A / 2 / B) := Nat.le_mul_of_pos_right B hq
  have hsum : A = B * (2 * (A / 2 / B)) + (2 * (A / 2 % B) + A % 2) := by
    have hA2 := Nat.div_add_mod A 2
    have : B * (2 * (A / 2 / B)) = 2 * (B * (A / 2 / B)) := by ring
    omega
  refine ⟨?_, ?_, by omega, by omega⟩
  · conv_lhs => rw [hsum]
    rw [Nat.mul_add_div hB]
  · conv_lhs => rw [hsum]
    rw [Nat.mul_add_mod]

/-- A quotient and remainder of a dividend less than twice the divisor. -/
theorem div_mod_of_lt_two_mul {A B : ℕ} (h : A < 2 * B) :
    A / B = (if B ≤ A then 1 else 0) ∧ A % B = if B ≤ A then A - B else A := by
  split
  · next hle =>
      have hdiv : A / B = 1 := Nat.div_eq_of_lt_le (by omega) (by omega)
      have := Nat.div_add_mod A B
      rw [hdiv] at this
      exact ⟨hdiv, by omega⟩
  · exact ⟨Nat.div_eq_of_lt (by omega), Nat.mod_eq_of_lt (by omega)⟩

theorem sle_iff_toNat_le {w : ℕ} {x y : BitVec w} (h : x.msb = y.msb) :
    x.sle y ↔ x.toNat ≤ y.toNat := by
  rw [BitVec.sle_eq_ule_of_msb_eq h, BitVec.ule_iff_toNat_le]

section halving

variable {a b : BitVec 64}

theorem two_pow_le_of_msb (h : ¬ a.msb = false) : 2 ^ 63 ≤ a.toNat := by
  rw [BitVec.msb_eq_false_iff_two_mul_lt] at h
  omega

theorem toNat_lt_of_msb (h : a.msb = false) : a.toNat < 2 ^ 63 := by
  rw [BitVec.msb_eq_false_iff_two_mul_lt] at h
  omega

theorem toNat_half : (a >>> 1).toNat = a.toNat / 2 := by
  rw [BitVec.toNat_ushiftRight, Nat.shiftRight_eq_div_pow]

theorem javaDiv_half (hb : b.msb = false) (hb₀ : b ≠ 0) :
    javaDiv (a >>> 1) b = .ok ((a >>> 1) / b) := by
  have hhalf : (a >>> 1).msb = false := by
    rw [BitVec.msb_eq_false_iff_two_mul_lt, toNat_half]
    have := a.isLt
    omega
  rw [javaDiv_of_msb hhalf hb, if_neg hb₀]

theorem half_eq_zero_iff (hb₀ : b ≠ 0) : (a >>> 1) / b = 0#64 ↔ a.toNat / 2 < b.toNat := by
  have hpos : 0 < b.toNat := Nat.pos_of_ne_zero fun h => hb₀ (BitVec.eq_of_toNat_eq h)
  rw [← BitVec.toNat_inj, BitVec.toNat_udiv, toNat_half]
  simp [Nat.div_eq_zero_iff, hpos.ne']

theorem toNat_parity : (a &&& 1#64).toNat = a.toNat % 2 := by
  rw [BitVec.toNat_and]
  exact Nat.and_one_is_mod a.toNat

theorem toNat_halfRem : ((a >>> 1) - b * ((a >>> 1) / b)).toNat = a.toNat / 2 % b.toNat := by
  have ha := a.isLt
  have hdecomp := Nat.div_add_mod (a.toNat / 2) b.toNat
  rw [BitVec.toNat_sub, BitVec.toNat_mul, BitVec.toNat_udiv, toNat_half]
  generalize b.toNat * (a.toNat / 2 / b.toNat) = prod at *
  generalize a.toNat / 2 % b.toNat = rem at *
  omega

/-- The doubled remainder of the half does not overflow once the half quotient is
positive. -/
theorem toNat_doubled (hb₀ : b ≠ 0) (hle : b.toNat ≤ a.toNat / 2) :
    (((a >>> 1) - b * ((a >>> 1) / b)) + ((a >>> 1) - b * ((a >>> 1) / b)) + (a &&& 1#64)).toNat =
      2 * (a.toNat / 2 % b.toNat) + a.toNat % 2 := by
  have hpos : 0 < b.toNat := Nat.pos_of_ne_zero fun h => hb₀ (BitVec.eq_of_toNat_eq h)
  obtain ⟨-, -, hlt, -⟩ := half_division a.isLt hpos hle
  rw [BitVec.toNat_add, BitVec.toNat_add, toNat_halfRem, toNat_parity]
  omega

theorem small_by_big (ha : a.msb = false) (hb : ¬ b.msb = false) : a / b = 0#64 ∧ a % b = a := by
  have hA := toNat_lt_of_msb ha
  have hB := two_pow_le_of_msb hb
  constructor <;> apply BitVec.eq_of_toNat_eq
  · rw [BitVec.toNat_udiv, Nat.div_eq_of_lt (by omega)]
    rfl
  · rw [BitVec.toNat_umod, Nat.mod_eq_of_lt (by omega)]

theorem big_by_big (ha : ¬ a.msb = false) (hb : ¬ b.msb = false) :
    a / b = (if b.sle a then 1#64 else 0#64) ∧ a % b = if b.sle a then a - b else a := by
  have hA := two_pow_le_of_msb ha
  have hB := two_pow_le_of_msb hb
  have hlt := a.isLt
  have hdm := div_mod_of_lt_two_mul (A := a.toNat) (B := b.toNat) (by omega)
  have hle : b.sle a ↔ b.toNat ≤ a.toNat := sle_iff_toNat_le (by simp_all)
  constructor <;> apply BitVec.eq_of_toNat_eq <;> simp only [hle]
  · rw [BitVec.toNat_udiv, hdm.1]
    split <;> rfl
  · rw [BitVec.toNat_umod, hdm.2]
    split
    · rw [BitVec.toNat_sub]
      omega
    · rfl

theorem big_by_small (ha : ¬ a.msb = false) (hb : b.msb = false) (hb₀ : b ≠ 0) {q r : BitVec 64}
    (hq : q = (a >>> 1) / b)
    (hr : r = ((a >>> 1) - b * q) + ((a >>> 1) - b * q) + (a &&& 1#64)) :
    (a / b = if q = 0#64 then 1#64 else if b.sle r then q + q + 1#64 else q + q) ∧
      a % b = if q = 0#64 then a - b else if b.sle r then r - b else r := by
  have hA := two_pow_le_of_msb ha
  have hB := toNat_lt_of_msb hb
  have hlt := a.isLt
  have hpos : 0 < b.toNat := Nat.pos_of_ne_zero fun h => hb₀ (BitVec.eq_of_toNat_eq h)
  by_cases hzero : q = 0#64
  · -- the half is less than the divisor, so the quotient is one
    have hhalf := (half_eq_zero_iff hb₀).mp (hq ▸ hzero)
    have hdm := div_mod_of_lt_two_mul (A := a.toNat) (B := b.toNat) (by omega)
    simp only [hzero, if_true]
    constructor <;> apply BitVec.eq_of_toNat_eq
    · rw [BitVec.toNat_udiv, hdm.1, if_pos (by omega)]
      rfl
    · rw [BitVec.toNat_umod, hdm.2, if_pos (by omega), BitVec.toNat_sub]
      omega
  · have hle : b.toNat ≤ a.toNat / 2 := by
      have := (half_eq_zero_iff (a := a) hb₀).not.mp (hq ▸ hzero)
      omega
    have hqn : q.toNat = a.toNat / 2 / b.toNat := by rw [hq, BitVec.toNat_udiv, toNat_half]
    have hrn : r.toNat = 2 * (a.toNat / 2 % b.toNat) + a.toNat % 2 := by
      rw [hr, hq]
      exact toNat_doubled hb₀ hle
    obtain ⟨hdiv, hmod, hsmall, htwice⟩ := half_division hlt hpos hle
    rw [← hrn, ← hqn] at hdiv
    rw [← hrn] at hmod hsmall htwice
    have hdm := div_mod_of_lt_two_mul htwice
    rw [hdm.1] at hdiv
    rw [hdm.2] at hmod
    have hrmsb : r.msb = false := by
      rw [BitVec.msb_eq_false_iff_two_mul_lt]
      omega
    have hsle : b.sle r ↔ b.toNat ≤ r.toNat := sle_iff_toNat_le (by rw [hb, hrmsb])
    have hbound : a.toNat / b.toNat < 2 ^ 64 := (Nat.div_le_self _ _).trans_lt hlt
    simp only [hzero, if_false]
    constructor <;> apply BitVec.eq_of_toNat_eq <;> simp only [hsle]
    · rw [BitVec.toNat_udiv, hdiv]
      split at hdiv <;> split <;> simp only [BitVec.toNat_add, BitVec.toNat_ofNat] <;> omega
    · rw [BitVec.toNat_umod, hmod]
      split
      · rw [BitVec.toNat_sub]
        omega
      · rfl

end halving

theorem udivLong_eq (a b : BitVec 64) :
    udivLong a b = if b = 0 then .error .arithmeticException else .ok (a / b) := by
  have hne : ∀ {x : BitVec 64}, ¬ x.msb = false → x ≠ 0 := by
    rintro x hx rfl
    simp at hx
  unfold udivLong
  simp only [toInt_nonneg_iff]
  split
  · next ha =>
      split
      · next hb => exact javaDiv_of_msb ha hb
      · next hb => rw [if_neg (hne hb), (small_by_big ha hb).1]
  · next ha =>
      split
      · next hb =>
          by_cases hb₀ : b = 0
          · subst hb₀
            rfl
          · simp only [javaDiv_half hb hb₀, if_neg hb₀, bind, Except.bind]
            rw [(big_by_small ha hb hb₀ rfl rfl).1]
            split <;> rfl
      · next hb => rw [if_neg (hne hb), (big_by_big ha hb).1]

theorem uremLong_eq (a b : BitVec 64) :
    uremLong a b = if b = 0 then .error .arithmeticException else .ok (a % b) := by
  have hne : ∀ {x : BitVec 64}, ¬ x.msb = false → x ≠ 0 := by
    rintro x hx rfl
    simp at hx
  unfold uremLong
  simp only [toInt_nonneg_iff]
  split
  · next ha =>
      split
      · next hb => exact javaRem_of_msb ha hb
      · next hb => rw [if_neg (hne hb), (small_by_big ha hb).2]
  · next ha =>
      split
      · next hb =>
          by_cases hb₀ : b = 0
          · subst hb₀
            rfl
          · simp only [javaDiv_half hb hb₀, if_neg hb₀, bind, Except.bind]
            rw [(big_by_small ha hb hb₀ rfl rfl).2]
            split <;> rfl
      · next hb => rw [if_neg (hne hb), (big_by_big ha hb).2]

/-- The two operations are division and remainder of unsigned numbers. -/
def DividesUnsigned {w : ℕ} (div rem : BitVec w → BitVec w → Except Throwable (BitVec w)) : Prop :=
  ∀ a b : BitVec w,
    (b ≠ 0 → ∃ q r, div a b = .ok q ∧ rem a b = .ok r ∧
      q.toNat = a.toNat / b.toNat ∧ r.toNat = a.toNat % b.toNat) ∧
    (b = 0 → div a b = .error .arithmeticException ∧ rem a b = .error .arithmeticException)

theorem dividesUnsigned_of_eq {w : ℕ}
    {div rem : BitVec w → BitVec w → Except Throwable (BitVec w)}
    (hdiv : ∀ a b, div a b = if b = 0 then .error .arithmeticException else .ok (a / b))
    (hrem : ∀ a b, rem a b = if b = 0 then .error .arithmeticException else .ok (a % b)) :
    DividesUnsigned div rem := by
  intro a b
  rw [hdiv, hrem]
  constructor
  · intro hb
    refine ⟨a / b, a % b, if_neg hb, if_neg hb, ?_, ?_⟩
    · exact BitVec.toNat_udiv
    · exact BitVec.toNat_umod
  · intro hb
    exact ⟨if_pos hb, if_pos hb⟩

/-- The sums that the halving algorithm compares do not overflow as signed numbers. -/
theorem toInt_doubled {a b : BitVec 64} (hb : 0 < b.toInt) (hq : (a >>> 1) / b ≠ 0#64) :
    0 ≤ ((a >>> 1) - b * ((a >>> 1) / b)).toInt ∧
      (((a >>> 1) - b * ((a >>> 1) / b)) + ((a >>> 1) - b * ((a >>> 1) / b)) +
        (a &&& 1#64)).toInt =
        2 * ((a >>> 1) - b * ((a >>> 1) / b)).toInt + (a &&& 1#64).toInt := by
  have hb₀ : b ≠ 0 := by
    rintro rfl
    simp at hb
  have hpos : 0 < b.toNat := Nat.pos_of_ne_zero fun h => hb₀ (BitVec.eq_of_toNat_eq h)
  have hle : b.toNat ≤ a.toNat / 2 := by
    have := (half_eq_zero_iff (a := a) hb₀).not.mp hq
    omega
  obtain ⟨-, -, hlt, -⟩ := half_division a.isLt hpos hle
  have hsigned : ∀ {x : BitVec 64}, x.toNat < 2 ^ 63 → x.toInt = x.toNat := by
    intro x hx
    rw [BitVec.toInt_eq_toNat_of_lt]
    omega
  have hrem : ((a >>> 1) - b * ((a >>> 1) / b)).toInt = (a.toNat / 2 % b.toNat : ℕ) := by
    rw [hsigned (by rw [toNat_halfRem]; omega), toNat_halfRem]
  have hpar : (a &&& 1#64).toInt = (a.toNat % 2 : ℕ) := by
    rw [hsigned (by rw [toNat_parity]; omega), toNat_parity]
  have hsum := toNat_doubled hb₀ hle
  have hsumInt := hsigned (hsum.trans_lt hlt)
  rw [hsumInt, hsum, hrem, hpar]
  omega

/-- Division of unsigned numbers is exact for every width, and in the halving algorithm no
sum that is compared has overflowed. -/
theorem division_exact :
    DividesUnsigned udivByte uremByte ∧ DividesUnsigned udivShort uremShort ∧
      DividesUnsigned udivInt uremInt ∧ DividesUnsigned udivLong uremLong ∧
      ∀ a b : BitVec 64, a.toInt < 0 → 0 < b.toInt → (a >>> 1) / b ≠ 0#64 →
        0 ≤ ((a >>> 1) - b * ((a >>> 1) / b)).toInt ∧
          (((a >>> 1) - b * ((a >>> 1) / b)) + ((a >>> 1) - b * ((a >>> 1) / b)) +
            (a &&& 1#64)).toInt =
            2 * ((a >>> 1) - b * ((a >>> 1) / b)).toInt + (a &&& 1#64).toInt := by
  refine ⟨?_, ?_, ?_, ?_, ?_⟩
  · apply dividesUnsigned_of_eq
    · exact divideBy_javaDiv (by decide) (by decide) (by decide)
    · exact divideBy_javaRem (by decide) (by decide) (by decide)
  · apply dividesUnsigned_of_eq
    · exact divideBy_javaDiv (by decide) (by decide) (by decide)
    · exact divideBy_javaRem (by decide) (by decide) (by decide)
  · apply dividesUnsigned_of_eq
    · exact divideBy_javaDiv (by decide) (by decide) (by decide)
    · exact divideBy_javaRem (by decide) (by decide) (by decide)
  · apply dividesUnsigned_of_eq
    · exact udivLong_eq
    · exact uremLong_eq
  · intro a b _ hb hq
    exact toInt_doubled hb hq

/-! ## Byte swap and maximum -/

def bswapShort (value : BitVec 16) : BitVec 16 :=
  let b0 := (value.signExtend 32 >>> 0) &&& 0xff#32
  let b1 := (value.signExtend 32 >>> 8) &&& 0xff#32
  (b0 <<< 8 ||| b1 <<< 0).setWidth 16

def bswapInt (value : BitVec 32) : BitVec 32 :=
  let b0 := (value >>> 0) &&& 0xff#32
  let b1 := (value >>> 8) &&& 0xff#32
  let b2 := (value >>> 16) &&& 0xff#32
  let b3 := (value >>> 24) &&& 0xff#32
  b0 <<< 24 ||| b1 <<< 16 ||| b2 <<< 8 ||| b3 <<< 0

def bswapLong (value : BitVec 64) : BitVec 64 :=
  let b0 := (value >>> 0) &&& 0xff#64
  let b1 := (value >>> 8) &&& 0xff#64
  let b2 := (value >>> 16) &&& 0xff#64
  let b3 := (value >>> 24) &&& 0xff#64
  let b4 := (value >>> 32) &&& 0xff#64
  let b5 := (value >>> 40) &&& 0xff#64
  let b6 := (value >>> 48) &&& 0xff#64
  let b7 := (value >>> 56) &&& 0xff#64
  b0 <<< 56 ||| b1 <<< 48 ||| b2 <<< 40 ||| b3 <<< 32 ||| b4 <<< 24 ||| b5 <<< 16 ||| b6 <<< 8 |||
    b7 <<< 0

/-- `smax`; the operands are compared after promotion to `p` bits. -/
def smaxBy {w : ℕ} (p : ℕ) (op1 op2 : BitVec w) : BitVec w :=
  if (op2.signExtend p).slt (op1.signExtend p) then op1 else op2

section bytes

open ByteReverse

theorem reverses_bswapInt (value : BitVec 32) : Reverses value (bswapInt value) := by
  have hmoves : bswapInt value =
      moveByte value 0 3 ||| moveByte value 1 2 ||| moveByte value 2 1 ||| moveByte value 3 0 := rfl
  intro i hi
  have hi' : i < 4 := hi
  rw [hmoves]
  simp (disch := omega) only [BitVec.extractLsb'_or, extractLsb'_moveByte]
  interval_cases i <;> simp

theorem reverses_bswapLong (value : BitVec 64) : Reverses value (bswapLong value) := by
  have hmoves : bswapLong value =
      moveByte value 0 7 ||| moveByte value 1 6 ||| moveByte value 2 5 ||| moveByte value 3 4 |||
        moveByte value 4 3 ||| moveByte value 5 2 ||| moveByte value 6 1 |||
        moveByte value 7 0 := rfl
  intro i hi
  have hi' : i < 8 := hi
  rw [hmoves]
  simp (disch := omega) only [BitVec.extractLsb'_or, extractLsb'_moveByte]
  interval_cases i <;> simp

/-- The promoted value is swapped in its low half. -/
theorem reverses_bswapShort (value : BitVec 16) : Reverses value (bswapShort value) := by
  have hmoves : bswapShort value = (moveByte (value.signExtend 32) 0 1 |||
      moveByte (value.signExtend 32) 1 0).setWidth 16 := rfl
  have hcut : ∀ {x : BitVec 32} {i : ℕ}, i < 2 →
      (x.setWidth 16).extractLsb' (8 * i) 8 = x.extractLsb' (8 * i) 8 := by
    intro x i hi
    exact BitVec.extractLsb'_setWidth_of_le (by omega)
  have hextend : ∀ {i : ℕ}, i < 2 →
      (value.signExtend 32).extractLsb' (8 * i) 8 = value.extractLsb' (8 * i) 8 := by
    intro i hi
    rw [← hcut hi, SignExtend.setWidth_signExtend (by decide)]
  intro i hi
  have hi' : i < 2 := hi
  rw [hmoves, hcut hi]
  simp (disch := omega) only [BitVec.extractLsb'_or, extractLsb'_moveByte]
  interval_cases i
  · simpa using hextend (i := 1) (by decide)
  · simpa using hextend (i := 0) (by decide)

end bytes

theorem smaxBy_eq {w p : ℕ} (h : w ≤ p) (op1 op2 : BitVec w) :
    smaxBy p op1 op2 = if op2.slt op1 then op1 else op2 := by
  unfold smaxBy
  simp only [BitVec.slt, BitVec.toInt_signExtend_of_le h]

end Instruction

end Llxvm.Runtime
