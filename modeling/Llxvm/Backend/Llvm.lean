import Llxvm.Backend.IntConstants
import Llxvm.Backend.LoopOrder
import Llxvm.Backend.OperandPack
import Mathlib.Logic.Relation

/-!
# The meaning of functions

What a function computes by the rules of LLVM: on integers of their own widths, pointers, and
floating point values that are their bits, with PHI nodes that are assigned at once.  What LLVM
leaves undefined has no meaning.  The memory, with its stack of frames, is that of the runtime.
-/

namespace Llxvm.Backend

open Llxvm.Jvm Llxvm.Runtime LittleEndian

/-! ## Values -/

/-- A value of a first-class type. -/
inductive LlvmVal where
  | int (w : IntWidth) (x : BitVec w.bits)
  | float (bits : BitVec 32)
  | double (bits : BitVec 64)
  | pointer (address : BitVec 32)

namespace LlvmVal

def type : LlvmVal → Ty
  | int w _ => .int w
  | float _ => .float
  | double _ => .double
  | pointer _ => .pointer

def bytes : LlvmVal → List (BitVec 8)
  | int w x => leBytes ((w.bits + 7) / 8) x
  | float bits => leBytes 4 bits
  | double bits => leBytes 8 bits
  | pointer address => leBytes 4 address

/-- The integer whose bytes are the given ones, if it has these bytes. -/
def intOfBytes (w : IntWidth) (bs : List (BitVec 8)) : Option LlvmVal :=
  if leBytes ((w.bits + 7) / 8) (ofLeBytes w.bits bs) = bs then some (int w (ofLeBytes w.bits bs))
  else none

def ofBytes (ty : Ty) (bs : List (BitVec 8)) : Option LlvmVal :=
  match ty with
  | .int w => intOfBytes w bs
  | .float => some (float (ofLeBytes 32 bs))
  | .double => some (double (ofLeBytes 64 bs))
  | .pointer => some (pointer (ofLeBytes 32 bs))
  | _ => none

end LlvmVal

/-- The values of arguments and instructions, by their numbers. -/
abbrev Values := ℕ → Option LlvmVal

/-! ## Addresses -/

/-- How far one index of a `getelementptr` goes. -/
def llvmIndex : GepType → LlvmVal → Option (BitVec 32)
  | .struct fields, .int _ i =>
      ((DataLayout.jvm.fieldOffsets 0 fields)[i.toNat]?).map (BitVec.ofNat 32)
  | .sequential elem, .int _ i =>
      some (BitVec.ofInt 32 (i.toInt * DataLayout.jvm.getTypeAllocSize elem))
  | _, _ => none

def llvmGep : BitVec 32 → List (GepType × LlvmVal) → Option (BitVec 32)
  | base, [] => some base
  | base, (ty, x) :: xs => do llvmGep (base + (← llvmIndex ty x)) xs

/-- Naturally aligned accesses to bytes that are present. -/
def llvmLoad (m : Memory) (address : BitVec 32) (ty : Ty) : Option LlvmVal := do
  let t ← ty.prim
  if t.size ∣ address.toNat then
    LlvmVal.ofBytes ty (← (List.range t.size).mapM fun i => m.byte (address.toNat + i))
  else none

def llvmStore (m : Memory) (address : BitVec 32) (x : LlvmVal) : Option Memory := do
  let t ← x.type.prim
  if t.size ∣ address.toNat ∧ m.Mapped address.toNat then some (m.write address.toNat x.bytes)
  else none

/-! ## Operations -/

/-- The IEEE operation of a floating point operator. -/
def floatOperator : BinaryOp → Option ArithOp
  | .fadd => some .add
  | .fsub => some .sub
  | .fmul => some .mul
  | .fdiv => some .div
  | .frem => some .rem
  | _ => none

/-- An integer as a signed operand of a conversion. -/
def signedOperand (w : IntWidth) (x : BitVec w.bits) : Prefix × Val :=
  if w.bits ≤ 32 then (.i, .int (x.signExtend 32)) else (.l, .long (x.signExtend 64))

/-- The result of a conversion to an integer, if it is in the range of the type. -/
def signedResult (w : IntWidth) : Val → Option LlvmVal
  | .int r => if (r.setWidth w.bits).signExtend 32 = r ∧ w.bits ≤ 32 then
      some (.int w (r.setWidth w.bits)) else none
  | .long r => if (r.setWidth w.bits).signExtend 64 = r ∧ 32 < w.bits then
      some (.int w (r.setWidth w.bits)) else none
  | _ => none

def floatResult : Val → Option LlvmVal
  | .float z => some (.float z)
  | _ => none

def doubleResult : Val → Option LlvmVal
  | .double z => some (.double z)
  | _ => none

section operations

variable (env : Env)

def llvmArithmetic (op : BinaryOp) : LlvmVal → LlvmVal → Option LlvmVal
  | .int w x, .int w' y =>
      if w' = w then (llvmBinary op x (y.setWidth w.bits)).map (.int w) else none
  | .float x, .float y => do
      floatResult (← env.float (.arith .f (← floatOperator op)) [.float x, .float y])
  | .double x, .double y => do
      doubleResult (← env.float (.arith .d (← floatOperator op)) [.double x, .double y])
  | _, _ => none

/-- The sign bit is the first one. -/
def llvmNegate : LlvmVal → Option LlvmVal
  | .float x => some (.float (x ^^^ 0x80000000#32))
  | .double x => some (.double (x ^^^ 0x8000000000000000#64))
  | _ => none

def llvmCast (op : CastOp) (x : LlvmVal) (ty : Ty) : Option LlvmVal :=
  match op, x, ty with
  | .trunc, .int src x, .int dest =>
      if dest.bits < src.bits then some (.int dest (x.setWidth dest.bits)) else none
  | .zext, .int src x, .int dest =>
      if src.bits < dest.bits then some (.int dest (x.setWidth dest.bits)) else none
  | .sext, .int src x, .int dest =>
      if src.bits < dest.bits then some (.int dest (x.signExtend dest.bits)) else none
  | .ptrtoint, .pointer a, .int dest => some (.int dest (a.setWidth dest.bits))
  | .inttoptr, .int _ x, .pointer => some (.pointer (x.setWidth 32))
  | .bitcast, .pointer a, .pointer => some (.pointer a)
  | .sitofp, .int w x, .float => do
      floatResult (← env.float (.conv (signedOperand w x).1 .f) [(signedOperand w x).2])
  | .sitofp, .int w x, .double => do
      doubleResult (← env.float (.conv (signedOperand w x).1 .d) [(signedOperand w x).2])
  | .fptosi, .float x, .int w => do
      signedResult w (← env.float (.conv .f (Ty.int w).letter) [.float x])
  | .fptosi, .double x, .int w => do
      signedResult w (← env.float (.conv .d (Ty.int w).letter) [.double x])
  | .fptrunc, .double x, .float => do floatResult (← env.float (.conv .d .f) [.double x])
  | .fpext, .float x, .double => do doubleResult (← env.float (.conv .f .d) [.float x])
  | _, _, _ => none

def llvmCmp (pred : CmpPredicate) (x y : LlvmVal) : Option LlvmVal :=
  match pred, x, y with
  | .icmp pred, .int w x, .int w' y =>
      if w' = w then some (.int .w1 (BitVec.ofBool (llvmCompare pred x (y.setWidth w.bits))))
      else none
  | .icmp pred, .pointer x, .pointer y => some (.int .w1 (BitVec.ofBool (llvmCompare pred x y)))
  | .fcmp pred, .float x, .float y =>
      some (.int .w1 (BitVec.ofBool (llvmFloatCompare .single pred x y)))
  | .fcmp pred, .double x, .double y =>
      some (.int .w1 (BitVec.ofBool (llvmFloatCompare .double pred x y)))
  | _, _, _ => none

/-- The class that has the method of a function, as the writer names it. -/
def functionClass (g : FunctionRef) : ClassName :=
  if g.external then .classForMethod (methodName g) else .self

def Constant.index : Constant → Option LlvmVal
  | .int w i => some (.int w i)
  | _ => none

/-- The constants that are values, and addresses that are computed from them.  An undefined value
has no meaning. -/
def llvmConstant : Constant → Option LlvmVal
  | .null => some (.pointer 0#32)
  | .int w x => some (.int w x)
  | .float bits => some (.float bits)
  | .double bits => some (.double bits)
  | .function g => some (.pointer (env.functionPointer (functionClass g) (methodName g)))
  | .globalVariable g => some (.pointer (env.address g.name))
  | .castExpr op ty c => do
      match op, ty, ← llvmConstant c with
      | .bitcast, .pointer, .pointer a => return .pointer a
      | _, _, _ => none
  | .gepExpr base types indices => do
      match ← llvmConstant base with
      | .pointer a => return .pointer (← llvmGep a (types.zip (← indices.mapM Constant.index)))
      | _ => none
  | _ => none

def llvmOperand (values : Values) : Value → Option LlvmVal
  | .const c => llvmConstant env c
  | .var v => values v.id

def llvmAddress (values : Values) (v : Value) : Option (BitVec 32) := do
  match ← llvmOperand env values v with
  | .pointer a => return a
  | _ => none

def llvmBit (values : Values) (v : Value) : Option Bool := do
  match ← llvmOperand env values v with
  | .int w b => if w = .w1 then return b ≠ 0 else none
  | _ => none

/-- The operations that neither branch nor call, with the memory behind them. -/
def llvmOperation (values : Values) (m : Memory) : Operation → Option (Option LlvmVal × Memory)
  | .arithmetic op left right => do
      let x ← llvmArithmetic env op (← llvmOperand env values left)
        (← llvmOperand env values right)
      return (some x, m)
  | .fneg v => do return (some (← llvmNegate (← llvmOperand env values v)), m)
  | .cast op v ty => do return (some (← llvmCast env op (← llvmOperand env values v) ty), m)
  | .cmp pred left right => do
      let x ← llvmCmp pred (← llvmOperand env values left) (← llvmOperand env values right)
      return (some x, m)
  | .select cond trueVal falseVal => do
      let x ← llvmOperand env values (if ← llvmBit env values cond then trueVal else falseVal)
      return (some x, m)
  | .load address ty => do
      return (some (← llvmLoad m (← llvmAddress env values address) ty), m)
  | .store address val => do
      let a ← llvmAddress env values address
      return (none, ← llvmStore m a (← llvmOperand env values val))
  | .getElementPtr v indices => do
      let xs ← indices.mapM fun i => do return (i.1, ← llvmOperand env values i.2)
      return (some (.pointer (← llvmGep (← llvmAddress env values v) xs)), m)
  | .alloca ty arraySize => do
      match ← llvmOperand env values arraySize with
      | .int _ n =>
          let size := n.toNat * DataLayout.jvm.getTypeAllocSize ty
          match Memory.allocateStack (BitVec.ofNat 32 size) m with
          | .ok a m => return (some (.pointer a), m)
          | .error _ _ => none
      | _ => none
  | .intrinsic .vaEnd => some (none, m)
  | .intrinsic .ignored => some (none, m)
  | _ => none

/-! ## Runs -/

/-- The block that a branch goes to. -/
def llvmTaken (values : Values) : BranchInst → Option ℕ
  | .unconditional _ dest => some dest
  | .conditional _ cond trueBlock falseBlock => do
      return if ← llvmBit env values cond then trueBlock else falseBlock

/-- The value of a PHI node behind an edge from the block `src`. -/
def llvmPhi (src : ℕ) (values : Values) (p : Phi) : Option LlvmVal := do
  llvmOperand env values (← p.getIncomingValueForBlock src)

/-- All PHI nodes take their values from those before the edge. -/
def Values.enter (phis : List Phi) (src : ℕ) (values : Values) : Values := fun id =>
  match phis.find? fun p => p.result.id = id with
  | some p => llvmPhi env src values p
  | none => values id

/-- An instruction with a result gives it a value of its type. -/
inductive Assigns : Option Local → Option LlvmVal → Values → Values → Prop
  | nothing {values : Values} : Assigns none none values values
  | result {v : Local} {x : LlvmVal} {values : Values} (hty : x.type = v.ty) :
      Assigns (some v) (some x) values (Function.update values v.id (some x))

/-- What calls of functions do: the arguments and the memory before, the result and the memory
behind. -/
abbrev Calls := FunctionRef → List LlvmVal → Memory → Option LlvmVal → Memory → Prop

/-- A running function is in a block, in front of the instructions `rest`. -/
structure LlvmState where
  block : ℕ
  rest : List Inst
  values : Values
  memory : Memory

variable (calls : Calls) (f : FunctionDef)

inductive LlvmStep : LlvmState → LlvmState → Prop
  | compute {b : ℕ} {inst : Inst} {rest : List Inst} {values values' : Values} {m m' : Memory}
      {x : Option LlvmVal} (h : llvmOperation env values m inst.op = some (x, m'))
      (hassigns : Assigns inst.result x values values') :
      LlvmStep ⟨b, inst :: rest, values, m⟩ ⟨b, rest, values', m'⟩
  | call {b : ℕ} {inst : Inst} {rest : List Inst} {values values' : Values} {m m' : Memory}
      {g : FunctionRef} {ty : FunctionType} {args : List Value} {xs : List LlvmVal}
      {x : Option LlvmVal} (hop : inst.op = .call (.const (.function g)) ty args)
      (hargs : args.mapM (llvmOperand env values) = some xs) (hcall : calls g xs m x m')
      (hassigns : Assigns inst.result x values values') :
      LlvmStep ⟨b, inst :: rest, values, m⟩ ⟨b, rest, values', m'⟩
  | branch {b : ℕ} {inst : Inst} {rest : List Inst} {values : Values} {m : Memory}
      {br : BranchInst} {block : BasicBlock} (hop : inst.op = .br br) (hparent : br.parent = b)
      (htaken : llvmTaken env values br = some block.id) (hblock : block ∈ f.blocks) :
      LlvmStep ⟨b, inst :: rest, values, m⟩
        ⟨block.id, block.insts, values.enter env block.phis b, m⟩

/-- The function returns: the frame is closed. -/
inductive LlvmReturns : LlvmState → Option LlvmVal → Memory → Prop
  | void {b : ℕ} {inst : Inst} {rest : List Inst} {values : Values} {m m' : Memory}
      (hop : inst.op = .ret none) (hframe : Memory.destroyStackFrame m = .ok () m') :
      LlvmReturns ⟨b, inst :: rest, values, m⟩ none m'
  | value {b : ℕ} {inst : Inst} {rest : List Inst} {values : Values} {m m' : Memory} {v : Value}
      {x : LlvmVal} (hop : inst.op = .ret (some v)) (hv : llvmOperand env values v = some x)
      (hframe : Memory.destroyStackFrame m = .ok () m') :
      LlvmReturns ⟨b, inst :: rest, values, m⟩ (some x) m'

/-- The values of the arguments of a function. -/
def Values.ofArgs : List Local → List LlvmVal → Values
  | v :: args, x :: xs => Function.update (Values.ofArgs args xs) v.id (some x)
  | _, _ => fun _ => none

/-- The function is entered: a frame is opened. -/
inductive LlvmEnters : List LlvmVal → Memory → LlvmState → Prop
  | intro {xs : List LlvmVal} {m m' : Memory} {block : BasicBlock} {blocks : List BasicBlock}
      (hblocks : f.blocks = block :: blocks) (htypes : xs.map LlvmVal.type = f.args.map Local.ty)
      (hframe : Memory.createStackFrame m = .ok () m') :
      LlvmEnters xs m ⟨block.id, block.insts, Values.ofArgs f.args xs, m'⟩

/-- The function runs from its entry to a return, through states in which `P` holds. -/
def LlvmRuns (P : LlvmState → Prop) (xs : List LlvmVal) (m : Memory) (x : Option LlvmVal)
    (m' : Memory) : Prop :=
  ∃ s s', LlvmEnters f xs m s ∧
    Relation.ReflTransGen (fun s s' => LlvmStep env calls f s s' ∧ P s) s s' ∧ P s' ∧
    LlvmReturns env s' x m'

end operations

end Llxvm.Backend
