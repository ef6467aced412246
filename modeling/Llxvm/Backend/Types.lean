import Llxvm.Jvm.Machine

/-!
# LLVM types and their JVM counterparts

`jvm_types.cpp`.  Only first-class types occur: `void` has no values, wider integers
are `llvm_unreachable`, vectors are split by the scalarizer pass.
-/

namespace Llxvm.Backend

open Llxvm.Jvm

/-- An integer width that the writer accepts. -/
structure IntWidth where
  bits : ℕ
  pos : 0 < bits
  le : bits ≤ 64
  deriving DecidableEq

inductive Ty where
  | int (w : IntWidth)
  | float
  | double
  | pointer
  | array (n : ℕ) (elem : Ty)
  | struct (fields : List Ty)

namespace IntWidth

abbrev w1 : IntWidth := ⟨1, by decide, by decide⟩
abbrev w8 : IntWidth := ⟨8, by decide, by decide⟩
abbrev w16 : IntWidth := ⟨16, by decide, by decide⟩
abbrev w32 : IntWidth := ⟨32, by decide, by decide⟩
abbrev w64 : IntWidth := ⟨64, by decide, by decide⟩

end IntWidth

/-- The width of an integer type, rounded up to one that the JVM has. -/
def intBitWidth (n : ℕ) (expand : Bool) : ℕ :=
  if n = 1 ∨ n = 8 ∨ n = 16 ∨ n = 32 then if expand then 32 else n
  else if n < 32 then 32
  else 64

def getBitWidth (ty : Ty) (expand : Bool) : ℕ :=
  match ty with
  | .int w => intBitWidth w.bits expand
  | .float => 32
  | .double => 64
  | .pointer => 32
  | .array _ _ => 32
  | .struct _ => 32

def getTypeID (ty : Ty) (expand : Bool) : TypeID :=
  match ty with
  | .int w =>
      match intBitWidth w.bits expand with
      | 1 => .Z
      | 8 => .B
      | 16 => .S
      | 32 => .I
      | _ => .J
  | .float => .F
  | .double => .D
  | .pointer => .I
  | .array _ _ => .I
  | .struct _ => .I

def getTypeDescriptor (ty : Ty) (expand : Bool) : TypeID := getTypeID ty expand

/-- The letter of a type ID; `boolean` and `byte` share one. -/
def typeLetter : TypeID → Prefix
  | .Z => .b
  | .B => .b
  | .S => .s
  | .I => .i
  | .J => .l
  | .F => .f
  | .D => .d
  | .V => .a

def getTypePrefix (ty : Ty) (expand : Bool) : Prefix := typeLetter (getTypeID ty expand)

/-- The letter of the locals of a type. -/
def Ty.letter (ty : Ty) : Prefix := getTypePrefix ty true

/-- 64 bit types occupy two registers. -/
def Ty.registers (ty : Ty) : ℕ := if getBitWidth ty false = 64 then 2 else 1

/-- Expanding makes an `int` of every type that is not a `long`. -/
theorem intBitWidth_expand (n : ℕ) :
    intBitWidth n true = if intBitWidth n false = 64 then 64 else 32 := by
  unfold intBitWidth
  by_cases h : n = 1 ∨ n = 8 ∨ n = 16 ∨ n = 32
  · have hne : n ≠ 64 := by omega
    simp [h, hne]
  · simp only [h, if_false]
    split <;> rfl

/-- The locals of a type are `int`, `long`, `float` or `double` variables. -/
theorem Ty.letter_cases (ty : Ty) :
    (ty.letter = .i ∨ ty.letter = .f) ∧ ty.registers = 1 ∨
      (ty.letter = .l ∨ ty.letter = .d) ∧ ty.registers = 2 := by
  cases ty with
  | int w =>
      simp only [Ty.letter, Ty.registers, getTypePrefix, getTypeID, getBitWidth, intBitWidth_expand]
      by_cases h : intBitWidth w.bits false = 64 <;> simp [h, typeLetter]
  | float => simp [Ty.letter, Ty.registers, getTypePrefix, getTypeID, getBitWidth, typeLetter]
  | double => simp [Ty.letter, Ty.registers, getTypePrefix, getTypeID, getBitWidth, typeLetter]
  | pointer => simp [Ty.letter, Ty.registers, getTypePrefix, getTypeID, getBitWidth, typeLetter]
  | array n elem => simp [Ty.letter, Ty.registers, getTypePrefix, getTypeID, getBitWidth,
    typeLetter]
  | struct fields =>
      simp [Ty.letter, Ty.registers, getTypePrefix, getTypeID, getBitWidth, typeLetter]

end Llxvm.Backend
