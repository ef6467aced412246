import Llxvm.Backend.DataLayout

/-!
# LLVM values

The operands that the writer loads: constants of all kinds, and the arguments and
instructions that live in JVM locals.
-/

namespace Llxvm.Backend

open Llxvm.Jvm

structure FunctionType where
  params : List Ty
  isVarArg : Bool
  /-- `none` is `void`. -/
  returnType : Option Ty

structure FunctionRef where
  name : String
  type : FunctionType
  /-- The function is in `externRefs`. -/
  external : Bool

structure GlobalRef where
  name : String
  external : Bool

inductive CastOp where
  | trunc | zext | sext | fptrunc | fpext | uitofp | sitofp | fptoui | fptosi
  | ptrtoint | inttoptr | bitcast
  deriving DecidableEq

inductive BinaryOp where
  | add | fadd | sub | fsub | mul | fmul | udiv | sdiv | fdiv | urem | srem | frem
  | and | or | xor | shl | lshr | ashr
  deriving DecidableEq

inductive CmpPredicate where
  | icmp (pred : Runtime.Instruction.Predicate)
  | fcmp (pred : Runtime.Instruction.FloatPredicate)
  deriving DecidableEq

/-- What one index of a `getelementptr` steps into. -/
inductive GepType where
  | struct (fields : List Ty)
  | sequential (elem : Ty)

/-- Constants.  `string` is a `ConstantDataArray` of `i8`, `dataArray` one of another
type, `aggregate` a `ConstantArray` or a `ConstantStruct`; the last five are the forms of
`ConstantExpr`. -/
inductive Constant where
  | null
  | int (w : IntWidth) (value : BitVec w.bits)
  | float (bits : BitVec 32)
  | double (bits : BitVec 64)
  | undef (ty : Ty)
  | aggregateZero (ty : Ty)
  | blockAddress (block : String)
  | function (f : FunctionRef)
  | globalVariable (g : GlobalRef)
  | string (bytes : List (BitVec 8))
  | dataArray (elem : Ty) (elems : List Constant)
  | aggregate (ty : Ty) (operands : List Constant)
  | castExpr (op : CastOp) (ty : Ty) (c : Constant)
  | binaryExpr (op : BinaryOp) (left right : Constant)
  | cmpExpr (pred : CmpPredicate) (left right : Constant)
  | gepExpr (base : Constant) (types : List GepType) (indices : List Constant)
  | selectExpr (cond trueVal falseVal : Constant)

namespace Constant

def type : Constant → Ty
  | null => .pointer
  | int w _ => .int w
  | float _ => .float
  | double _ => .double
  | undef ty => ty
  | aggregateZero ty => ty
  | blockAddress _ => .pointer
  | function _ => .pointer
  | globalVariable _ => .pointer
  | string bytes => .array bytes.length (.int .w8)
  | dataArray elem elems => .array elems.length elem
  | aggregate ty _ => ty
  | castExpr _ ty _ => ty
  | binaryExpr _ left _ => left.type
  | cmpExpr _ _ _ => .int .w1
  | gepExpr _ _ _ => .pointer
  | selectExpr _ trueVal _ => trueVal.type

end Constant

/-- An argument or an instruction, identified by a number. -/
structure Local where
  id : ℕ
  ty : Ty

inductive Value where
  | const (c : Constant)
  | var (v : Local)

namespace Value

def type : Value → Ty
  | const c => c.type
  | var v => v.ty

def isUndef : Value → Bool
  | const (.undef _) => true
  | _ => false

end Value

end Llxvm.Backend
