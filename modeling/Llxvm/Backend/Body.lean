import Llxvm.Backend.Branch
import Llxvm.Backend.Compare
import Llxvm.Backend.FunctionCall
import Llxvm.Lib.OrderedMap
import Mathlib.Data.String.Basic

/-!
# Instructions and basic blocks

`printInstruction` and `printBasicBlock`.  Besides the JVM instructions that have a meaning in the
model, a method has calls of translated methods, calls of library methods by their text, and
directives.
-/

namespace Llxvm.Backend

open Llxvm.Jvm

/-! ## The text of a method -/

inductive Line where
  | instr (i : Instr)
  | call (callee : Callee)
  /-- A `printSimpleInstruction` of another kind. -/
  | simple (inst : String)
  | lookupswitch (cases : List (ℤ × Label)) (default : Label)
  /-- `.catch llxvm/runtime/Jump`. -/
  | catching (start stop handler : Label)
  deriving DecidableEq

def lines (code : Code) : List Line := code.map .instr

def prefixText : Prefix → String
  | .a => "a"
  | .b => "b"
  | .s => "s"
  | .i => "i"
  | .l => "l"
  | .f => "f"
  | .d => "d"

/-! ## Functions -/

/-- The functions of `java.lang.Math` that have an intrinsic. -/
inductive MathFunction where
  | exp | log | log10 | sqrt | pow
  deriving DecidableEq

inductive MemOp where
  | memcpy | memmove | memset

/-- Calls of intrinsic functions.  The operands of an `Instruction` end with the function that is
called. -/
inductive IntrinsicInst where
  | vaStart (list : Value)
  | vaCopy (dest src : Value)
  | vaEnd
  | mem (op : MemOp) (dest source length : Value) (w : IntWidth) (last : BitVec w.bits)
  | fltRounds
  /-- Debugging and lifetimes. -/
  | ignored
  | math (fn : MathFunction) (operands : List Value)
  | smulWithOverflow
  /-- The function has the return type `ty` and a parameter. -/
  | bswap (ty : Ty) (parameter : Local)
  | smax (left right : Value)

inductive Operation where
  | ret (v : Option Value)
  | unreachable
  | arithmetic (op : BinaryOp) (left right : Value)
  | fneg (v : Value)
  | cast (op : CastOp) (v : Value) (ty : Ty)
  | cmp (pred : CmpPredicate) (left right : Value)
  | br (inst : BranchInst)
  | select (cond trueVal falseVal : Value)
  /-- The address is that of an object of the type `ty`. -/
  | load (address : Value) (ty : Ty)
  | store (address val : Value)
  | getElementPtr (v : Value) (indices : List (GepType × Value))
  | call (functionVal : Value) (ty : FunctionType) (args : List Value)
  | intrinsic (inst : IntrinsicInst)
  | switch (cases : List (ℤ × ℕ)) (defaultDest : ℕ)
  | alloca (ty : Ty) (arraySize : Value)
  | vaArg (list : Value) (ty : Ty)
  | indirectBr (address : Local) (destinations : List String)
  | invoke

structure Inst where
  result : Option Local
  op : Operation

/-- A basic block with its PHI nodes and the instructions behind them. -/
structure BasicBlock where
  id : ℕ
  name : String
  phis : List Phi
  insts : List Inst

/-- What the pass asks `LoopInfo` for; loops are numbers. -/
structure LoopInfo where
  /-- The innermost loop of a block. -/
  loopFor : ℕ → Option ℕ
  header : ℕ → ℕ
  parentLoop : ℕ → Option ℕ
  /-- The blocks of a loop and of the loops in it. -/
  blocks : ℕ → List ℕ

structure FunctionDef where
  ref : FunctionRef
  hasLocalLinkage : Bool
  args : List Local
  blocks : List BasicBlock
  loopInfo : LoopInfo

/-- The results of the instructions of a block. -/
def BasicBlock.results (b : BasicBlock) : List Local :=
  b.phis.map Phi.result ++ b.insts.filterMap Inst.result

namespace FunctionDef

variable (f : FunctionDef)

def block (id : ℕ) : Option BasicBlock := f.blocks.find? fun b => b.id = id

/-- What the branches depend on. -/
def branches : Function where
  vars := f.args ++ f.blocks.flatMap BasicBlock.results
  phis id := ((f.block id).map BasicBlock.phis).getD []

/-- The entry of `basicblock_map` for a name; a later block of the same name replaces it. -/
def blockNamed (name : String) : Option BasicBlock := f.blocks.reverse.find? fun b => b.name = name

/-- `basicblock_map.begin()`. -/
def firstNamed : Option BasicBlock :=
  match f.blocks with
  | [] => none
  | b :: bs => f.blockNamed ((bs.map BasicBlock.name).foldl min b.name)

end FunctionDef

/-! ## Instructions -/

section print

variable (opts : GenerationOpts)

/-- `printVirtualInstruction`. -/
def virtualInstruction (sig : String) : Line :=
  .simple ("invokestatic llxvm/runtime/Instruction/" ++ sig)

/-- `printSelectInstruction`. -/
def printSelectInstruction (cond trueVal falseVal : Value) : Emit Code := do
  let uid ← getUID
  let c ← printValueLoad opts cond
  let t ← printValueLoad opts trueVal
  let la ← printLabel (.select uid false)
  let e ← printValueLoad opts falseVal
  let lb ← printLabel (.select uid true)
  return c ++ [.ifeq (.select uid false)] ++ t ++ [gotoToken opts (.select uid true)] ++ la ++ e ++
    lb

def printIndirectLoad (address : Value) (ty : Ty) : Emit Code := do
  let l ← printValueLoad opts address
  return l ++ [.invokestatic (.load (getTypeDescriptor ty false))]

def printIndirectStore (address val : Value) : Emit Code := do
  let a ← printValueLoad opts address
  let v ← printValueLoad opts val
  return a ++ v ++ [.invokestatic (.store (getTypeDescriptor val.type false))]

def Value.constant : Value → Option Constant
  | .const c => some c
  | .var _ => none

/-- The loop of `printGepInstruction`. -/
def printGepIndices : List (GepType × Value) → Emit Code
  | [] => return []
  | (ty, index) :: indices => do
      let i ← printGepIndex opts .jvm ty index.constant index.type (printValueLoad opts index)
      return i ++ (← printGepIndices indices)

def printGepInstruction (v : Value) (indices : List (GepType × Value)) : Emit Code := do
  let base ← printCastInstruction opts .inttoptr v .pointer v.type
  return base ++ (← printGepIndices opts indices)

def printAllocaInstruction (ty : Ty) (arraySize : Value) : Emit Code :=
  let size := DataLayout.jvm.getTypeAllocSize ty
  match arraySize with
  | .const (.int _ n) => return printPtrLoad opts (n.toNat * size) ++ [.invokestatic .allocateStack]
  | arraySize => do
      let load ← printValueLoad opts arraySize
      return printPtrLoad opts size ++ load ++ [.arith .i .mul, .invokestatic .allocateStack]

def printVAArgInstruction (list : Value) (ty : Ty) : Emit Code := do
  let first ← printIndirectLoad opts list .pointer
  let second ← printValueLoad opts list
  return first ++ [.dup] ++ printPtrLoad opts (DataLayout.jvm.getTypeAllocSize ty) ++
    [.arith .i .add] ++ second ++ [.swap, .invokestatic (.store (getTypeDescriptor .pointer false)),
      .invokestatic (.load (getTypeDescriptor ty false))]

def MemOp.text : MemOp → String
  | memcpy => "memcpy(II"
  | memmove => "memmove(II"
  | memset => "memset(IB"

def MathFunction.text : MathFunction → String
  | exp => "exp(D)D"
  | log => "log(D)D"
  | log10 => "log10(D)D"
  | sqrt => "sqrt(D)D"
  | pow => "pow(DD)D"

def printMemIntrinsic (op : MemOp) (dest source length : Value) (last : Code) :
    Emit (List Line) := do
  let d ← printValueLoad opts dest
  let s ← printValueLoad opts source
  let n ← printValueLoad opts length
  return lines (d ++ s ++ n ++ last) ++ [.simple ("invokestatic llxvm/runtime/Memory/" ++ op.text ++
    typeText (getTypeDescriptor length.type true) ++ "I)V")]

/-- An operand as a `double`. -/
def printMathOperand (f32 : Bool) (v : Value) : Emit Code := do
  let l ← printValueLoad opts v
  return l ++ if f32 then [.conv .f .d] else []

/-- The second argument of `pow`. -/
def printMathRest (f32 : Bool) : List Value → Emit Code
  | [] => return []
  | second :: _ => printMathOperand opts f32 second

/-- The operands are taken from the second on. -/
def printMathIntrinsic (fn : MathFunction) (operands : List Value) : Emit (List Line) :=
  match operands with
  | _ :: first :: rest => do
      let f32 := getBitWidth first.type false = 32
      let l ← printMathOperand opts f32 first
      let r ← printMathRest opts f32 rest
      return lines (l ++ r) ++ [.simple ("invokestatic java/lang/Math/" ++ fn.text)] ++
        lines (if f32 then [.conv .d .f] else [])
  | _ => unreachable

def printIntrinsicCall (vaArgNum : ℕ) : IntrinsicInst → Emit (List Line)
  | .vaStart list => do
      let l ← printValueLoad opts list
      return lines (l ++ [.load .i .plain vaArgNum,
        .invokestatic (.store (getTypeDescriptor .pointer false))])
  | .vaCopy dest src => do
      let d ← printValueLoad opts dest
      let s ← printValueLoad opts src
      return lines (d ++ s ++ [.invokestatic (.load (getTypeDescriptor .pointer false)),
        .invokestatic (.store (getTypeDescriptor .pointer false))])
  | .vaEnd => return []
  | .mem op dest source length _ last =>
      printMemIntrinsic opts op dest source length (printConstLoadInt opts last)
  | .fltRounds => return [.instr (.const .i (-1))]
  | .ignored => return []
  | .math fn operands => printMathIntrinsic opts fn operands
  | .smulWithOverflow => return [.simple "dmul"]
  | .bswap ty parameter => do
      let d := typeText (getTypeDescriptor ty false)
      let l ← printValueLoad opts (.var parameter)
      return lines l ++ [virtualInstruction ("bswap(" ++ d ++ ")" ++ d)]
  | .smax left right => do
      let d := typeText (getTypeDescriptor right.type false)
      let l ← printValueLoad opts left
      let r ← printValueLoad opts right
      return lines (l ++ r) ++ [virtualInstruction ("smax(" ++ d ++ d ++ ")" ++ d)]

/-- The function is called by its name. -/
def Operation.isSetjmp : Operation → Bool
  | .call (.const (.function f)) _ _ => f.name = "setjmp"
  | _ => false

/-- What follows a direct call, if it is one of `setjmp`. -/
def printSetjmp (isSetjmp : Bool) : Emit Code :=
  if isSetjmp then do
    let w ← get
    set { w with usedRegisters := w.usedRegisters + 1 }
    let label ← printLabel (.setjmp w.usedRegisters)
    return [.store .i .plain w.usedRegisters, .const .i 0] ++ label
  else return []

/-- `printCallInstruction`, for a call that is not one of an intrinsic function. -/
def printCall (functionVal : Value) (ty : FunctionType) (args : List Value) :
    Emit (List Line) := do
  let call ← printFunctionCall opts functionVal ty args
  let after ← printSetjmp (Operation.call functionVal ty args).isSetjmp
  return lines call.operands ++ [.call call.callee] ++ lines after

section function

variable (f : FunctionDef) (vaArgNum : ℕ)

/-- The cases of the switch are in the order of the values; a later one of the same value
replaces an earlier one. -/
def printSwitchInstruction (cases : List (ℤ × ℕ)) (defaultDest : ℕ) : List Line :=
  let cases := cases.foldl (fun m c => OrderedMap.insert c.1 c.2 m) []
  [.lookupswitch (cases.map fun c => (c.1, .block c.2)) (.block defaultDest)]

/-- The numbers of the blocks that an `indirectbr` may go to, with the blocks. -/
def indirectCases : List String → Emit (List (ℤ × ℕ))
  | [] => return []
  | name :: names => do
      match (← get).basicblockMap.lookup name, f.blockNamed name with
      | some bsid, some b => return (bsid, b.id) :: (← indirectCases names)
      | _, _ => unreachable

def printIndirectBr (address : Local) (destinations : List String) : Emit (List Line) := do
  let n ← getLocalVarNumber address
  let cases ← indirectCases f destinations
  match f.firstNamed with
  | none => unreachable
  | some first =>
      return .instr (.load .i (if 255 < n ∧ opts.useKrakatau then .wide else .plain) n) ::
        printSwitchInstruction cases first.id

def printOperation : Operation → Emit (List Line)
  | .ret none => return [.instr (.invokestatic .destroyStackFrame), .simple "return"]
  | .ret (some v) => do
      let l ← printValueLoad opts v
      return lines (.invokestatic .destroyStackFrame :: l) ++
        [.simple (prefixText (getTypePrefix v.type true) ++ "return")]
  | .unreachable => return [.simple ("getstatic llxvm/runtime/Instruction$Unreachable/instance " ++
      "Lllxvm/runtime/Instruction$Unreachable;"), .instr .athrow]
  | .arithmetic op left right => return lines (← printArithmeticInstruction opts op left right)
  | .fneg v => do
      let l ← printValueLoad opts v
      return lines l ++ [.simple (prefixText (getTypePrefix v.type true) ++ "neg")]
  | .cast op v ty => return lines (← printCastInstruction opts op v ty v.type)
  | .cmp pred left right => return lines (← printCmpInstruction opts pred left right)
  | .br inst => return lines (← printBranchInstruction opts f.branches inst)
  | .select cond trueVal falseVal =>
      return lines (← printSelectInstruction opts cond trueVal falseVal)
  | .load address ty => return lines (← printIndirectLoad opts address ty)
  | .store address val => return lines (← printIndirectStore opts address val)
  | .getElementPtr v indices => return lines (← printGepInstruction opts v indices)
  | .call functionVal ty args => printCall opts functionVal ty args
  | .intrinsic inst => printIntrinsicCall opts vaArgNum inst
  | .switch cases defaultDest => return printSwitchInstruction cases defaultDest
  | .alloca ty arraySize => return lines (← printAllocaInstruction opts ty arraySize)
  | .vaArg list ty => return lines (← printVAArgInstruction opts list ty)
  | .indirectBr address destinations => printIndirectBr opts f address destinations
  -- `printFunctionCall` casts the instruction to a `CallInst`
  | .invoke => unreachable

/-- The store of the result of an instruction. -/
def printResult : Option Local → Emit Code
  | none => return []
  | some v => printValueStore opts v

def printInst (inst : Inst) : Emit (List Line) := do
  let code ← printOperation opts f vaArgNum inst.op
  let store ← printResult opts inst.result
  return code ++ lines store

/-- The loop of `printBasicBlock`: each instruction with the lines that are printed for it. -/
def printInsts : List Inst → Emit (List (Inst × List Line))
  | [] => return []
  | inst :: insts => do
      let code ← printInst opts f vaArgNum inst
      return (inst, code) :: (← printInsts insts)

end function

end print

end Llxvm.Backend
