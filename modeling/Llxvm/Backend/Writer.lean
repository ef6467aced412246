import Llxvm.Backend.Values

/-!
# The writer: loading and storing values

`jvm_const.cpp`, `jvm_loadstore.cpp` and the instructions that may also occur in constant
expressions.  A `print…` method becomes a function that returns the code it prints;
`llvm_unreachable` is `none`.
-/

namespace Llxvm.Backend

open Llxvm.Jvm

/-- The command line options that the writer reads. -/
structure GenerationOpts where
  useKrakatau : Bool
  rewriteBranches : Bool
  wideGotos : Bool
  wideLdc : Bool

/-- The fields of `JVMWriter` that change while a function is printed, and the counter of
`getUID`. -/
structure Writer where
  localVars : List (ℕ × ℕ)
  usedRegisters : ℕ
  basicblockMap : List (String × ℕ)
  uid : ℕ
  curRewriteBrLblId : ℕ
  lastLabel : Option Label

abbrev Emit := StateT Writer Option

theorem emit_bind {α β : Type} (x : Emit α) (f : α → Emit β) (w : Writer) :
    (x >>= f) w = (x w).bind fun r => f r.1 r.2 := rfl

theorem emit_bind_eq_some {α β : Type} {x : Emit α} {f : α → Emit β} {w : Writer} {p : β × Writer}
    (h : (x >>= f) w = some p) : ∃ a w₁, x w = some (a, w₁) ∧ f a w₁ = some p := by
  rw [emit_bind, Option.bind_eq_some_iff] at h
  obtain ⟨⟨a, w₁⟩, hx, hf⟩ := h
  exact ⟨a, w₁, hx, hf⟩

theorem emit_pure {α : Type} (a : α) (w : Writer) : (pure a : Emit α) w = some (a, w) := rfl

theorem emit_get (w : Writer) : (get : Emit Writer) w = some (w, w) := rfl

/-- `llvm_unreachable`. -/
def unreachable {α : Type} : Emit α := fun _ => none

def getUID : Emit ℕ := modifyGet fun w => (w.uid + 1, { w with uid := w.uid + 1 })

/-- A label equal to the last one printed is left out. -/
def printLabel (label : Label) : Emit Code := do
  if (← get).lastLabel = some label then return []
  modify fun w => { w with lastLabel := some label }
  return [.label label]

/-- The local variable of a value; registers are allocated if necessary. -/
def getLocalVarNumber (v : Local) : Emit ℕ := do
  let w ← get
  match w.localVars.lookup v.id with
  | some n => return n
  | none =>
    set { w with
      localVars := (v.id, w.usedRegisters) :: w.localVars
      usedRegisters := w.usedRegisters + v.ty.registers }
    return w.usedRegisters

section options

variable (opts : GenerationOpts)

def ldcToken (text : Literal) : Instr := if opts.wideLdc then .ldc2_w text else .ldc text

def gotoToken (target : Label) : Instr := .goto opts.wideGotos target

/-! ## Constants -/

/-- `printConstLoad(const APInt&)`. -/
def printConstLoadInt {w : ℕ} (i : BitVec w) : Code :=
  if w ≤ 32 then
    let value := i.toInt
    if value = -1 then [.const .i (-1)]
    else if 0 ≤ value ∧ value ≤ 5 then [.const .i value]
    else if -0x80 ≤ value ∧ value ≤ 0x7f then [.bipush value]
    else if -0x8000 ≤ value ∧ value ≤ 0x7fff then [.sipush value]
    else [ldcToken opts (.int value)]
  else if i = 0#w then [.const .l 0]
  else if i = 1#w then [.const .l 1]
  else if opts.useKrakatau then [.ldc2_w (.long i.toInt)]
  else [.ldc2_w (.int i.toInt)]

/-- Pointers have 32 bits. -/
def printPtrLoad (n : ℕ) : Code := printConstLoadInt opts (BitVec.ofNat 32 n)

/-- `printConstLoad(float)`; both zeros compare equal to `0.0`. -/
def printConstLoadFloat (f : BitVec 32) : Code :=
  if f &&& 0x7fffffff#32 = 0#32 then [.const .f 0]
  else if f = 0x3f800000#32 then [.const .f 1]
  else if f = 0x40000000#32 then [.const .f 2]
  else if 0x7f800000 < (f &&& 0x7fffffff#32).toNat then [.getstatic (.nan .f)]
  else if f = 0x7f800000#32 then [.getstatic (.infinity .f false)]
  else if f = 0xff800000#32 then [.getstatic (.infinity .f true)]
  else [ldcToken opts (.float f)]

/-- `printConstLoad(double)`. -/
def printConstLoadDouble (d : BitVec 64) : Code :=
  if d &&& 0x7fffffffffffffff#64 = 0#64 then [.const .d 0]
  else if d = 0x3ff0000000000000#64 then [.const .d 1]
  else if 0x7ff0000000000000 < (d &&& 0x7fffffffffffffff#64).toNat then [.getstatic (.nan .d)]
  else if d = 0x7ff0000000000000#64 then [.getstatic (.infinity .d false)]
  else if d = 0xfff0000000000000#64 then [.getstatic (.infinity .d true)]
  else [.ldc2_w (.double d)]

def getCallSignature (ty : FunctionType) : List TypeID × TypeID :=
  let ret := match ty.returnType with
    | none => TypeID.V
    | some t => getTypeDescriptor t false
  if ty.isVarArg ∧ ty.params = [] then ([], ret)
  else (ty.params.map (getTypeDescriptor · false) ++ (if ty.isVarArg then [.I] else []), ret)

/-- The parameters in a `.method` directive; every variadic function has one for its pointer. -/
def declaredParams (params : List Ty) (isVarArg : Bool) : List TypeID :=
  params.map (getTypeDescriptor · false) ++ if isVarArg then [.I] else []

def methodName (f : FunctionRef) : MethodName :=
  ⟨f.name, (getCallSignature f.type).1, (getCallSignature f.type).2⟩

/-- The address of a function, from its class and its signature. -/
def printFunctionLoad (f : FunctionRef) : Code :=
  [if f.external then .classForMethod (methodName f) else ldcToken opts (.className .self),
    ldcToken opts (.methodName (methodName f)), .invokestatic .getFunctionPointer]

def printGlobalLoad (g : GlobalRef) : Code :=
  [.getstatic (.global g.name (if g.external then none else some .self))]

/-! ## Instructions on loaded operands -/

/-- `printCastInstruction(typePrefix, srcTypePrefix)`. -/
def printCastPrefix (typePrefix srcTypePrefix : Prefix) : Code :=
  if srcTypePrefix ≠ typePrefix then [.conv srcTypePrefix typePrefix] else []

def printBitCastInstruction (ty srcTy : Ty) : Code :=
  match getTypeID srcTy false, getTypeID ty false with
  | .J, .D => [.invokestatic (.float (.bitcast .D .J))]
  | .I, .F => [.invokestatic (.float (.bitcast .F .I))]
  | .D, .J => [.invokestatic (.float (.bitcast .J .D))]
  | .F, .I => [.invokestatic (.float (.bitcast .I .F))]
  | _, _ => []

/-- The part of `printCastInstruction` after the load of the operand. -/
def castCode (op : CastOp) (ty srcTy : Ty) : Code :=
  match op with
  | .sitofp | .fptosi | .fptrunc | .fpext | .sext =>
      (if getBitWidth srcTy false < 32 then printCastPrefix (getTypePrefix srcTy false) .i
        else []) ++
        printCastPrefix (getTypePrefix ty true) (getTypePrefix srcTy true)
  | .trunc =>
      if getBitWidth srcTy false = 64 ∧ getBitWidth ty false < 32 then
        .conv .l .i :: printCastPrefix (getTypePrefix ty false) .i
      else printCastPrefix (getTypePrefix ty false) (getTypePrefix srcTy true)
  | .inttoptr => printCastPrefix .i (getTypePrefix srcTy true)
  | .ptrtoint => printCastPrefix (getTypePrefix ty false) .i
  | .zext =>
      [.invokestatic (.zext (getTypeDescriptor ty true) (getTypeDescriptor srcTy false))]
  | .uitofp => [.invokestatic (.float (.uitofp (getTypeID ty false) (getTypeID srcTy false)))]
  | .fptoui => [.invokestatic (.float (.fptoui (getTypeID ty false) (getTypeID srcTy false)))]
  | .bitcast => printBitCastInstruction ty srcTy

/-- The part of `printArithmeticInstruction` after the loads of the operands. -/
def arithmeticCode (op : BinaryOp) (leftTy rightTy : Ty) : Code :=
  let typePrefix := getTypePrefix leftTy true
  let typeDescriptor := getTypeDescriptor leftTy false
  let shift (op : ArithOp) : Code :=
    (if getBitWidth rightTy false = 64 then [.conv .l .i] else []) ++ [.arith typePrefix op]
  match op with
  | .add | .fadd => [.arith typePrefix .add]
  | .sub | .fsub => [.arith typePrefix .sub]
  | .mul | .fmul => [.arith typePrefix .mul]
  | .sdiv | .fdiv => [.arith typePrefix .div]
  | .srem | .frem => [.arith typePrefix .rem]
  | .and => [.arith typePrefix .and]
  | .or => [.arith typePrefix .or]
  | .xor => [.arith typePrefix .xor]
  | .shl => shift .shl
  | .lshr => shift .ushr
  | .ashr => shift .shr
  | .udiv => [.invokestatic (.udiv typeDescriptor)]
  | .urem => [.invokestatic (.urem typeDescriptor)]

/-- The part of `printCmpInstruction` after the loads of the operands. -/
def cmpCode (pred : CmpPredicate) (leftTy : Ty) : Code :=
  match pred with
  | .icmp pred => [.invokestatic (.icmp pred (getTypeDescriptor leftTy true))]
  | .fcmp pred => [.invokestatic (.fcmp pred (getTypeDescriptor leftTy true))]

/-- The code of one index of a `getelementptr`. The index of a struct, and of the short
forms for arrays, is a constant integer; `loadIndex` prints the load of another one. -/
def printGepIndex (dl : DataLayout) (ty : GepType) (index : Option Constant) (indexTy : Ty)
    (loadIndex : Emit Code) : Emit Code :=
  match ty, index with
  | .struct fields, some (.int _ i) =>
      return printPtrLoad opts (dl.gepFieldOffset fields i.toNat) ++ [.arith .i .add]
  | .struct _, _ => unreachable
  | .sequential elem, some (.int _ i) =>
      let size := dl.getTypeAllocSize elem % 2 ^ 32
      if i.toInt = 0 then return []
      else if i.toInt < 0 then
        return printPtrLoad opts (i.toInt.natAbs * size % 2 ^ 64) ++ [.arith .i .sub]
      else return printPtrLoad opts (i.toNat * size % 2 ^ 64) ++ [.arith .i .add]
  | .sequential elem, _ => do
      let load ← loadIndex
      return printPtrLoad opts (dl.getTypeAllocSize elem % 2 ^ 32) ++ load ++
        castCode .inttoptr .pointer indexTy ++ [.arith .i .mul, .arith .i .add]

/-! ## Constant expressions -/

mutual

/-- `printValueLoad` of a constant, with `printConstantExpr` for the expressions. -/
def printConstantLoad : Constant → Emit Code
  | .function f => return printFunctionLoad opts f
  | .globalVariable g => return printGlobalLoad g
  | .null => return printPtrLoad opts 0
  | .int _ i => return printConstLoadInt opts i
  | .float f => return printConstLoadFloat opts f
  | .double d => return printConstLoadDouble d
  | .undef _ => return printPtrLoad opts 0
  | .blockAddress block => do
      match (← get).basicblockMap.lookup block with
      | some bsid => return [ldcToken opts (.int bsid)]
      | none => unreachable
  | .aggregateZero _ => return printPtrLoad opts 0
  | .string _ => return printPtrLoad opts 0
  | .dataArray _ _ => return printPtrLoad opts 0
  | .aggregate _ _ => return printPtrLoad opts 0
  | .castExpr op ty c => return (← printConstantLoad c) ++ castCode op ty c.type
  | .binaryExpr op left right => do
      let l ← printConstantLoad left
      let r ← printConstantLoad right
      return l ++ r ++ arithmeticCode op left.type right.type
  | .cmpExpr pred left right => do
      let l ← printConstantLoad left
      let r ← printConstantLoad right
      return l ++ r ++ cmpCode pred left.type
  | .gepExpr base types indices => do
      let b ← printConstantLoad base
      let i ← printConstantGep types indices
      return b ++ castCode .inttoptr .pointer base.type ++ i
  | .selectExpr cond trueVal falseVal => do
      let uid ← getUID
      let c ← printConstantLoad cond
      let t ← printConstantLoad trueVal
      let la ← printLabel (.select uid false)
      let f ← printConstantLoad falseVal
      let lb ← printLabel (.select uid true)
      return c ++ [.ifeq (.select uid false)] ++ t ++ [gotoToken opts (.select uid true)] ++
        la ++ f ++ lb

/-- The loop of `printGepInstruction` over constant indices. -/
def printConstantGep : List GepType → List Constant → Emit Code
  | ty :: types, index :: indices => do
      let i ← printGepIndex opts .jvm ty (some index) index.type (printConstantLoad index)
      return i ++ (← printConstantGep types indices)
  | _, _ => return []

end

/-! ## Loads and stores -/

/-- How the number of a local variable is written in a load or a store. -/
def localForm (n : ℕ) : Form :=
  if n ≤ 3 then .short else if n < 256 ∨ !opts.useKrakatau then .plain else .wide

def printValueLoad : Value → Emit Code
  | .const c => printConstantLoad opts c
  | .var v => do
      let n ← getLocalVarNumber v
      return [.load (getTypePrefix v.ty true) (localForm opts n) n]

/-- The instructions that truncate an `int` before it is stored. -/
def truncateCode (ty : Ty) : Code :=
  let bitWidth := getBitWidth ty false
  if bitWidth = 16 then [.conv .i .s]
  else if bitWidth = 8 then [.conv .i .b]
  else if bitWidth = 1 then [.const .i 1, .arith .i .and]
  else []

def printValueStore (v : Local) : Emit Code := do
  let n ← getLocalVarNumber v
  return truncateCode v.ty ++ [.store (getTypePrefix v.ty true) (localForm opts n) n]

def printArithmeticInstruction (op : BinaryOp) (left right : Value) : Emit Code := do
  let l ← printValueLoad opts left
  let r ← printValueLoad opts right
  return l ++ r ++ arithmeticCode op left.type right.type

def printCastInstruction (op : CastOp) (v : Value) (ty srcTy : Ty) : Emit Code := do
  let l ← printValueLoad opts v
  return l ++ castCode op ty srcTy

end options

end Llxvm.Backend
