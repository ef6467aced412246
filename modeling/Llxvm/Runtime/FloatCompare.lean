import Llxvm.Lib.FloatEncoding

/-!
# Floating point comparisons

`fcmp_*` of `llxvm.runtime.Instruction`, over the bits of `float` and `double` values.  The patterns
of numbers are in the order of the numbers.
-/

namespace Llxvm.Runtime.Instruction

/-- The predicates of `fcmp`. -/
inductive FloatPredicate where
  | oeq | oge | ogt | ole | olt | one | ord | ueq | uge | ugt | ule | ult | une | uno
  deriving DecidableEq

section fcmp

variable (F : FloatFormat) {w : ℕ}

/-- `Float.isNaN` and `Double.isNaN`: the pattern is above that of the infinity. -/
def isNaN (x : BitVec w) : Bool := F.infinity < FloatFormat.pattern x

/-- Both zeros are one number. -/
def signedPattern (x : BitVec w) : ℤ :=
  if x.msb then -(FloatFormat.pattern x : ℤ) else FloatFormat.pattern x

/-- `==`, which is false of a NaN. -/
def floatEq (op1 op2 : BitVec w) : Bool :=
  !isNaN F op1 && !isNaN F op2 && signedPattern op1 == signedPattern op2

/-- `<`, which is false of a NaN. -/
def floatLt (op1 op2 : BitVec w) : Bool :=
  !isNaN F op1 && !isNaN F op2 && decide (signedPattern op1 < signedPattern op2)

/-- `<=`, which is false of a NaN. -/
def floatLe (op1 op2 : BitVec w) : Bool :=
  !isNaN F op1 && !isNaN F op2 && decide (signedPattern op1 ≤ signedPattern op2)

def fcmpOrd (op1 op2 : BitVec w) : Bool := !isNaN F op1 && !isNaN F op2

def fcmpUno (op1 op2 : BitVec w) : Bool := isNaN F op1 || isNaN F op2

/-- `fcmp_*`, for `float` and `double`. -/
def fcmp : FloatPredicate → BitVec w → BitVec w → Bool
  | .oeq, op1, op2 => fcmpOrd F op1 op2 && floatEq F op1 op2
  | .ogt, op1, op2 => fcmpOrd F op1 op2 && floatLt F op2 op1
  | .oge, op1, op2 => fcmpOrd F op1 op2 && floatLe F op2 op1
  | .olt, op1, op2 => fcmpOrd F op1 op2 && floatLt F op1 op2
  | .ole, op1, op2 => fcmpOrd F op1 op2 && floatLe F op1 op2
  | .one, op1, op2 => fcmpOrd F op1 op2 && !floatEq F op1 op2
  | .ord, op1, op2 => fcmpOrd F op1 op2
  | .ueq, op1, op2 => fcmpUno F op1 op2 || floatEq F op1 op2
  | .ugt, op1, op2 => fcmpUno F op1 op2 || floatLt F op2 op1
  | .uge, op1, op2 => fcmpUno F op1 op2 || floatLe F op2 op1
  | .ult, op1, op2 => fcmpUno F op1 op2 || floatLt F op1 op2
  | .ule, op1, op2 => fcmpUno F op1 op2 || floatLe F op1 op2
  | .une, op1, op2 => fcmpUno F op1 op2 || !floatEq F op1 op2
  | .uno, op1, op2 => fcmpUno F op1 op2

/-! ## The order of the patterns -/

theorem ofBits_lt_iff (x y : BitVec w) :
    F.ofBits x < F.ofBits y ↔ signedPattern x < signedPattern y := by
  have hmono := F.strictMono_mag
  have hx := F.mag_nonneg (FloatFormat.pattern x)
  have hy := F.mag_nonneg (FloatFormat.pattern y)
  unfold FloatFormat.ofBits FloatFormat.signed signedPattern
  cases x.msb <;> cases y.msb
  · simpa using hmono.lt_iff_lt
  · -- no value without a sign is below one with a sign
    simp only [Bool.false_eq_true, if_false, if_true]
    constructor
    · intro h
      linarith
    · intro h
      omega
  · simp only [Bool.false_eq_true, if_false, if_true]
    constructor
    · intro h
      by_contra hno
      have hpx : FloatFormat.pattern x = 0 := by omega
      have hpy : FloatFormat.pattern y = 0 := by omega
      simp [hpx, hpy] at h
    · intro h
      rcases Nat.eq_zero_or_pos (FloatFormat.pattern x) with hpx | hpx
      · have hpos := F.mag_pos (n := FloatFormat.pattern y) (by omega)
        linarith
      · have hpos := F.mag_pos hpx.ne'
        linarith
  · simpa using hmono.lt_iff_lt

theorem ofBits_le_iff (x y : BitVec w) :
    F.ofBits x ≤ F.ofBits y ↔ signedPattern x ≤ signedPattern y := by
  rw [← not_lt, ofBits_lt_iff, not_lt]

theorem ofBits_eq_iff (x y : BitVec w) :
    F.ofBits x = F.ofBits y ↔ signedPattern x = signedPattern y := by
  rw [le_antisymm_iff, ofBits_le_iff, ofBits_le_iff, le_antisymm_iff]

end fcmp

end Llxvm.Runtime.Instruction
