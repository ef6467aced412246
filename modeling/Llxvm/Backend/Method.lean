import Llxvm.Backend.Body

/-!
# Methods

`printFunction`: the method of a function, with its basic blocks in the order of the loops.
-/

namespace Llxvm.Backend

open Llxvm.Jvm

/-! ## Blocks and loops -/

/-- A piece of the body of a method. -/
inductive Segment where
  /-- The label that `printLoop` prints for the header. -/
  | header (label : Code)
  | block (id : ℕ) (label : Code) (insts : List (Inst × List Line))
  /-- The jump back at the end of a loop. -/
  | back (jump : Instr)

namespace Segment

def lines : Segment → List Line
  | header label => Backend.lines label
  | block _ label insts => Backend.lines label ++ insts.flatMap Prod.snd
  | back jump => [.instr jump]

/-- The block that is printed, with its instructions. -/
def printed : Segment → Option (ℕ × List Inst)
  | block id _ insts => some (id, insts.map Prod.fst)
  | _ => none

end Segment

section print

variable (opts : GenerationOpts) (f : FunctionDef) (vaArgNum : ℕ)

def printBasicBlock (b : BasicBlock) : Emit Segment := do
  let label ← printLabel (.block b.id)
  let insts ← printInsts opts f vaArgNum b.insts
  return .block b.id label insts

/-- One block of the loop `l`; `inner` prints a loop in it. -/
def printLoopBlock (inner : ℕ → Emit (List Segment)) (l b : ℕ) : Emit (List Segment) :=
  match f.block b, f.loopInfo.loopFor b with
  | some block, some blockLoop =>
      if l = blockLoop then return [← printBasicBlock opts f vaArgNum block]
      else if b = f.loopInfo.header blockLoop ∧ some l = f.loopInfo.parentLoop blockLoop then
        inner blockLoop
      else return []
  | _, _ => unreachable

/-- The loop of `printLoop` over the blocks. -/
def printLoopBlocks (inner : ℕ → Emit (List Segment)) (l : ℕ) : List ℕ → Emit (List Segment)
  | [] => return []
  | b :: bs => do
      let first ← printLoopBlock opts f vaArgNum inner l b
      let rest ← printLoopBlocks inner l bs
      return first ++ rest

/-- The recursion goes as deep as the loops are nested, which the first argument bounds. -/
def printLoop : ℕ → ℕ → Emit (List Segment)
  | 0, _ => unreachable
  | n + 1, l => do
      let label ← printLabel (.block (f.loopInfo.header l))
      let body ← printLoopBlocks opts f vaArgNum (printLoop n) l (f.loopInfo.blocks l)
      return .header label :: body ++ [.back (gotoToken opts (.block (f.loopInfo.header l)))]

/-- One block of the loop of `printFunctionBody`. -/
def printBodyBlock (b : BasicBlock) : Emit (List Segment) :=
  match f.loopInfo.loopFor b.id with
  | some l =>
      if f.loopInfo.header l = b.id ∧ f.loopInfo.parentLoop l = none then
        printLoop opts f vaArgNum f.blocks.length l
      else return []
  | none => return [← printBasicBlock opts f vaArgNum b]

def printBodyBlocks : List BasicBlock → Emit (List Segment)
  | [] => return []
  | b :: bs => do
      let first ← printBodyBlock opts f vaArgNum b
      let rest ← printBodyBlocks bs
      return first ++ rest

def printFunctionBody : Emit (List Segment) := printBodyBlocks opts f vaArgNum f.blocks

end print

/-! ## Functions -/

/-- A call of a byte swap initialises the parameter of the function it calls. -/
def Operation.swapParameter : Operation → Option (Ty × Local)
  | .intrinsic (.bswap ty parameter) => some (ty, parameter)
  | _ => none

section print

variable (opts : GenerationOpts) (skipLocalsInit : Bool)

/-- The initialisation of the local variable of a value of the type `ty`. -/
def initCode (ty : Ty) (n : ℕ) : Code :=
  [.const (getTypePrefix ty true) 0, .store (getTypePrefix ty true)
    (if n < 256 ∨ !opts.useKrakatau then .plain else .wide) n]

def printLocalVariable (v : Local) : Emit Code := do
  let n ← getLocalVarNumber v
  return if skipLocalsInit then [] else initCode opts v.ty n

def printLocalVariables : List Local → Emit Code
  | [] => return []
  | v :: vars => do
      let code ← printLocalVariable opts skipLocalsInit v
      let rest ← printLocalVariables vars
      return code ++ rest

def printSwapParameter : Option (Ty × Local) → Emit Code
  | none => return []
  | some (ty, v) => do
      let n ← getLocalVarNumber v
      return initCode opts ty n

/-- The local variables of the instructions behind the PHI nodes. -/
def printInstVariables : List Inst → Emit Code
  | [] => return []
  | inst :: insts => do
      let own ← printLocalVariables opts skipLocalsInit inst.result.toList
      let parameter ← printSwapParameter opts inst.op.swapParameter
      let rest ← printInstVariables insts
      return own ++ parameter ++ rest

def printBlockVariables : List BasicBlock → Emit Code
  | [] => return []
  | b :: bs => do
      let phis ← printLocalVariables opts skipLocalsInit (b.phis.map Phi.result)
      let insts ← printInstVariables opts skipLocalsInit b.insts
      let rest ← printBlockVariables bs
      return phis ++ insts ++ rest

/-- The tests of `printCatchJump`, one for each `setjmp`. -/
def catchTests (jumpVarNum numJumps : ℕ) : Code :=
  (List.range' (jumpVarNum - numJumps) numJumps).flatMap fun i =>
    [.load .a .plain jumpVarNum, .getfield .id, .load .i .plain i, .if_icmpeq (.setjmp i)]

/-- `printCatchJump`, which is called if there are any jumps. -/
def printCatchJump (numJumps : ℕ) : Emit (List Line) :=
  if numJumps = 0 then return []
  else do
    let w ← get
    let jumpVarNum := w.usedRegisters
    set { w with usedRegisters := w.usedRegisters + 1 }
    let label ← printLabel .catchJump
    return .catching .beginMethod .catchJump .catchJump :: lines (label ++
      [.store .a .plain jumpVarNum, .load .a .plain jumpVarNum, .getfield .value] ++
      catchTests jumpVarNum numJumps ++ [.pop, .load .a .plain jumpVarNum, .athrow])

/-- A method, in the order in which it is printed. -/
structure MethodText where
  hasLocalLinkage : Bool
  name : MethodName
  prologue : List Line
  body : List Segment
  handler : List Line
  limitStack : ℕ
  limitLocals : ℕ
  epilogue : List Line

def MethodText.lines (m : MethodText) : List Line :=
  m.prologue ++ (m.body.flatMap Segment.lines ++ (m.handler ++ m.epilogue))

/-- The name and the descriptor in the `.method` directive. -/
def FunctionDef.methodName (f : FunctionDef) : MethodName :=
  ⟨f.ref.name, declaredParams (f.args.map Local.ty) f.ref.type.isVarArg,
    (getCallSignature f.ref.type).2⟩

def FunctionDef.numJumps (f : FunctionDef) : ℕ :=
  (f.blocks.flatMap BasicBlock.insts).countP fun inst => inst.op.isSetjmp

/-- The numbers of the blocks; the map has the last block of a name. -/
def FunctionDef.blockNumbers (f : FunctionDef) (curBasicblockMapId : ℕ) : List (String × ℕ) :=
  (f.blocks.mapIdx fun i b => (b.name, curBasicblockMapId + i)).reverse

/-- The fields that `printFunction` resets. -/
def startFunction (f : FunctionDef) (curBasicblockMapId : ℕ) : Emit Unit :=
  modify fun w => { w with
    localVars := [], basicblockMap := f.blockNumbers curBasicblockMapId, usedRegisters := 0 }

/-- The local variable of the pointer to the variadic arguments. -/
def allocateVaArg (isVarArg : Bool) : Emit ℕ :=
  modifyGet fun w => (w.usedRegisters,
    if isVarArg then { w with usedRegisters := w.usedRegisters + 1 } else w)

/-- The initialisation of the variables that keep the numbers of the jumps. -/
def initJumps (usedRegisters numJumps : ℕ) : Code :=
  (List.range numJumps).flatMap fun i => [.const .i 0, .store .i .plain (usedRegisters + i)]

/-- The stack limit is estimated from the number of operands of the largest instruction. -/
def printFunction (f : FunctionDef) (curBasicblockMapId maxOperands : ℕ) : Emit MethodText := do
  startFunction f curBasicblockMapId
  allocateLocals f.args
  let vaArgNum ← allocateVaArg f.ref.type.isVarArg
  let init ← printBlockVariables opts skipLocalsInit f.blocks
  let ids := initJumps (← get).usedRegisters f.numJumps
  let begin_method ← printLabel .beginMethod
  let body ← printFunctionBody opts f vaArgNum
  let handler ← printCatchJump f.numJumps
  let limitLocals := (← get).usedRegisters
  let end_method ← printLabel .endMethod
  return { hasLocalLinkage := f.hasLocalLinkage, name := f.methodName
           prologue := lines (init ++ ids ++ begin_method ++ [.invokestatic .createStackFrame])
           body, handler, limitStack := max 8 maxOperands * 2, limitLocals
           epilogue := lines end_method }

end print

end Llxvm.Backend
