import Llxvm.Backend.Writer
import Llxvm.Lib.Utf

/-!
# Static initialisers

`printStaticConstant` of `jvm_const.cpp`: the code that stores a constant at the address on
top of the stack and leaves the first address after it.
-/

namespace Llxvm.Backend

open Llxvm.Jvm Utf

/-! ## Strings -/

/-- The characters that `printConstLoad(const std::string&, bool)` escapes in a C string. -/
def escapeByte (c : BitVec 8) : List (BitVec 8) :=
  if c = ascii '\\' then [ascii '\\', ascii '\\']
  else if c = 0x08#8 then [ascii '\\', ascii 'b']
  else if c = 0x09#8 then [ascii '\\', ascii 't']
  else if c = 0x0a#8 then [ascii '\\', ascii 'n']
  else if c = 0x0c#8 then [ascii '\\', ascii 'f']
  else if c = 0x0d#8 then [ascii '\\', ascii 'r']
  else if c = ascii '\"' then [ascii '\\', ascii '\"']
  else if c = ascii '\'' then [ascii '\\', ascii '\'']
  else [c]

def hexdigit (x : BitVec 8) : BitVec 8 :=
  if x.toNat < 10 then ascii '0' + x else ascii 'A' + x - 10#8

/-- One byte of any other string. -/
def unicodeEscape (c : BitVec 8) : List (BitVec 8) :=
  [ascii '\\', ascii 'u', ascii '0', ascii '0',
    hexdigit (c.sshiftRight 4 &&& 0xf#8), hexdigit (c &&& 0xf#8)]

/-- The text between the quotes; that of a C string stops before its last byte. -/
def literalText (str : List (BitVec 8)) (cstring : Bool) : List (BitVec 8) :=
  if cstring then str.dropLast.flatMap escapeByte else str.flatMap unicodeEscape

/-- `ConstantDataSequential::isCString`: the only null is the last character. -/
def isCString (str : List (BitVec 8)) : Bool :=
  str.getLast? == some 0#8 && !str.dropLast.contains 0#8

section options

variable (opts : GenerationOpts)

/-- `printConstLoad(const std::string&, bool)`. -/
def printConstLoadString (str : List (BitVec 8)) (cstring : Bool) : Code :=
  [ldcToken opts (.string (literalText str cstring))]

/-- The string case of `printStaticConstant`. -/
def printStringConstant (str : List (BitVec 8)) (cstring : Bool) : Code :=
  printConstLoadString opts str cstring ++
    if cstring then [.invokestatic .packString] else [.toCharArray, .invokestatic .packChars]

/-! ## All constants -/

/-- `Constant::isNullValue`; the negative zero is not null. -/
def Constant.isNullValue : Constant → Bool
  | .null => true
  | .int _ i => i = 0
  | .float bits => bits = 0
  | .double bits => bits = 0
  | .aggregateZero _ => true
  | _ => false

/-- `printConstLoad(const Constant*)`; what it does not know becomes a null pointer, with a
warning. -/
def printConstLoad : Constant → Emit Code
  | .int _ i => return printConstLoadInt opts i
  | .float f => return printConstLoadFloat opts f
  | .double d => return printConstLoadDouble d
  | .blockAddress block => printConstantLoad opts (.blockAddress block)
  | _ => return printPtrLoad opts 0

/-- The pointers that `printStaticConstant` accepts. -/
def printStaticPointer : Constant → Emit Code
  | .undef _ => unreachable
  | .blockAddress _ => unreachable
  | c => printConstantLoad opts c

/-- The code for one scalar; an undefined aggregate has no operands. -/
def printStaticScalar (c : Constant) : Emit Code :=
  match c.type with
  | .int _ | .float | .double =>
      return (← printConstLoad opts c) ++ [.invokestatic (.pack (getTypeDescriptor c.type false))]
  | .array _ _ | .struct _ => return []
  | .pointer =>
      return (← printStaticPointer opts c) ++
        [.invokestatic (.pack (getTypeDescriptor c.type false))]

mutual

def printStaticConstant (c : Constant) : Emit Code :=
  if c.isNullValue then
    return printPtrLoad opts (DataLayout.jvm.getTypeAllocSize c.type) ++ [.invokestatic .zero]
  else
    match c with
    | .string bytes => return printStringConstant opts bytes (isCString bytes)
    | .dataArray _ elems => printStaticConstants elems
    | .aggregate _ operands => printStaticConstants operands
    | .selectExpr cond trueVal falseVal =>
        match trueVal.type with
        | .array _ _ | .struct _ => do
            -- the loop over the operands does not ask what the constant is
            let code ← printStaticConstant cond
            let code' ← printStaticConstant trueVal
            return code ++ code' ++ (← printStaticConstant falseVal)
        | _ => printStaticScalar opts (.selectExpr cond trueVal falseVal)
    | c => printStaticScalar opts c

def printStaticConstants : List Constant → Emit Code
  | [] => return []
  | c :: cs => do
      let code ← printStaticConstant c
      return code ++ (← printStaticConstants cs)

end

end options

end Llxvm.Backend
