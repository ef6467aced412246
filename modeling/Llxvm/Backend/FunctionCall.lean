import Llxvm.Backend.OperandPack
import Llxvm.Runtime.Function

/-!
# Function calls

A direct call pushes the fixed arguments and packs the variadic ones, whose address becomes a
hidden last parameter.  A call through a pointer packs all arguments, and `Function.invoke`
unpacks them by the parameter types of the method that it finds.
-/

namespace Llxvm.Backend

open Llxvm.Jvm Llxvm.Runtime Llxvm.Runtime.Memory Align LittleEndian

/-! ## Printing -/

/-- The last instruction of a call.  The class is left out where the linker looks for it. -/
inductive Callee where
  | method (cls : Option ClassName) (m : MethodName)
  | invoke (ret : TypeID)
  deriving DecidableEq

structure CallCode where
  operands : Code
  callee : Callee

section print

variable (opts : GenerationOpts)

/-- The loop over the fixed arguments of a direct call. -/
def printArguments : List Value → Emit Code
  | [] => return []
  | v :: args => do
      let load ← printValueLoad opts v
      let rest ← printArguments args
      return load ++ rest

def printVariadic (ty : FunctionType) (args : List Value) : Emit Code :=
  if ty.isVarArg then printOperandPack opts (args.drop ty.params.length) else return []

/-- `printFunctionCall`, for a call of a function of the type `ty`. -/
def printFunctionCall (functionVal : Value) (ty : FunctionType) (args : List Value) :
    Emit CallCode :=
  match functionVal with
  | .const (.function f) => do
      let fixed ← printArguments opts (args.take f.type.params.length)
      let packed ← printVariadic opts f.type args
      return ⟨fixed ++ packed, .method (if f.external then none else some .self) (methodName f)⟩
  | functionVal => do
      let load ← printValueLoad opts functionVal
      let packed ← printOperandPack opts args
      return ⟨load ++ packed, .invoke (getCallSignature ty).2⟩

theorem printFunctionCall_indirect {functionVal : Value}
    (h : ∀ f, functionVal ≠ .const (.function f)) (ty : FunctionType) (args : List Value) :
    printFunctionCall opts functionVal ty args = do
      let load ← printValueLoad opts functionVal
      let packed ← printOperandPack opts args
      return ⟨load ++ packed, .invoke (getCallSignature ty).2⟩ := by
  unfold printFunctionCall
  split
  · next f => exact (h f rfl).elim
  · rfl

end print

/-! ## Parameters -/

/-- The parameters of a method, from the values that were pushed. -/
def methodParameters : List TypeID → List Val → Option (List Prim)
  | [], [] => some []
  | d :: ds, x :: xs => do return (← argument d x) :: (← methodParameters ds xs)
  | _, _ => none

def typeText : TypeID → String
  | .V => "V"
  | .Z => "Z"
  | .B => "B"
  | .S => "S"
  | .I => "I"
  | .J => "J"
  | .F => "F"
  | .D => "D"

/-- The text of a method signature, the second argument of `getFunctionPointer`. -/
def methodText (m : MethodName) : String :=
  m.name ++ "(" ++ String.join (m.params.map typeText) ++ ")" ++ typeText m.ret

/-- The parameter types that the method of a function type has. -/
def paramTypes (ty : FunctionType) : List PrimType := (getCallSignature ty).1.filterMap primType

theorem getTypeDescriptor_ne_void (ty : Ty) : getTypeDescriptor ty false ≠ .V := by
  cases ty with
  | int w =>
      simp only [getTypeDescriptor, getTypeID]
      split <;> simp
  | _ => simp [getTypeDescriptor, getTypeID]

theorem toList_join_typeText {ds : List TypeID} (h : ∀ d ∈ ds, d ≠ .V) :
    (String.join (ds.map typeText)).toList =
      (ds.filterMap primType).map fun t => Function.descriptorHead (.prim t) := by
  induction ds with
  | nil => rfl
  | cons d ds ih =>
      have hd : d ≠ .V := h d List.mem_cons_self
      rw [List.map_cons, String.join_cons, String.toList_append, ih fun e he => h e (by simp [he])]
      cases d <;> first | exact (hd rfl).elim | rfl

/-- The method behind a pointer to a function has the parameter types of the function. -/
theorem parameterTypes_of_signature {m : MethodName} (hname : '(' ∉ m.name.toList)
    (hparams : ∀ d ∈ m.params, d ≠ .V) {method : Method} (h : getSignature method = methodText m) :
    method.parameterTypes = (m.params.filterMap primType).map .prim := by
  have hlist := congrArg String.toList h
  simp only [getSignature, methodText, String.toList_append, toList_join_typeText hparams,
    String.toList_join, List.append_assoc] at hlist
  have hparens := (Separator.first_inj method.no_paren hname hlist).2
  rw [List.flatMap_map] at hparens
  exact Function.parameterTypes_eq hparens

/-- The pointer was returned for the function, in the run that has made the tables. -/
def PointsTo (t : FunctionTable) (ptr : BitVec 32) (m : MethodName) : Prop :=
  ∃ loader p g classname, Function.Run loader p g ∧ p.functions = t ∧
    (classname, methodText m, ptr) ∈ g.pointers

theorem PointsTo.method {t : FunctionTable} {ptr : BitVec 32} {m : MethodName}
    (h : PointsTo t ptr m) (hname : '(' ∉ m.name.toList) (hparams : ∀ d ∈ m.params, d ≠ .V) :
    ∃ method, t.functionObjects ptr = some method ∧
      method.parameterTypes = (m.params.filterMap primType).map .prim := by
  obtain ⟨loader, p, g, classname, hrun, rfl, hmem⟩ := h
  obtain ⟨method, hobject, cls, -, -, hsig⟩ := hrun.inv.object_of_given hmem
  exact ⟨method, hobject, parameterTypes_of_signature hname hparams hsig⟩

/-! ## Calls -/

/-- The size of the block of packed operands of the given types. -/
def packedSize (tys : List Ty) : ℕ := (tys.map DataLayout.jvm.getTypeAllocSize).sum % 2 ^ 32

/-- A call of the function behind a pointer, at some point of a run: the frame of the caller
is open, and the stack has room for the block, unless that is larger than any that the
immediate of `sipush` can ask for. -/
structure CallSite (env : Env) (opts : GenerationOpts) (tys : List Ty) (ptr : BitVec 32) where
  writer : Writer
  vars : List Local
  functionVal : Value
  args : List Value
  config : Config
  fresh : writer.Fresh
  slots : Slots writer vars
  valuation : Valuation writer vars config.locals
  types : args.map Value.type = tys
  args_in : ∀ v ∈ args, v.In vars
  args_good : ∀ v ∈ args, v.Good env opts writer.basicblockMap
  indirect : ∀ f, functionVal ≠ .const (.function f)
  pointer : Operand env opts writer config.locals functionVal (.int ptr)
  mapped : StackMapped config.memory
  aligned : 8 ∣ config.memory.stackPointer.toNat
  frame : config.memory.stackPointer.toNat + 8 ≤ memSize
  room : stackBottom + min (alignUp (packedSize tys) 8) (2 ^ 15) ≤ config.memory.stackPointer.toNat

/-- A sequence of `va_arg` from the address reads the values, wherever the `va_list` is. -/
def ReadsVariadic (m : Memory) (addr : BitVec 32) (vs : List Prim) : Prop :=
  ∀ addrp : BitVec 32, m.Mapped addrp.toNat → InPage addrp.toNat 4 →
    CellApart addrp.toNat addr.toNat (vs.map Prim.type) →
    ∃ ps m', vaArgs addrp (vs.map Prim.type) (m.write addrp.toNat (leBytes 4 addr)) = .ok ps m' ∧
      List.Forall₂ (fun p v => load p v.type m' = .ok v m') ps vs

namespace CallSite

variable {env : Env} {opts : GenerationOpts} {tys : List Ty} {ptr : BitVec 32}

/-- The parameters of the method in a direct call, and the memory in which it starts. -/
def ReceivesDirectly (site : CallSite env opts tys ptr) (f : FunctionRef) (ps : List Prim)
    (m : Memory) : Prop :=
  ∃ call w', printFunctionCall opts (.const (.function f)) f.type site.args site.writer =
      some (call, w') ∧
    ∃ c, run env call.operands none site.config = .fall c ∧ c.memory = m ∧
      methodParameters (getCallSignature f.type).1
        (c.stack.take (getCallSignature f.type).1.length).reverse = some ps

/-- The same for the call through the pointer. -/
def ReceivesIndirectly (site : CallSite env opts tys ptr) (t : FunctionTable) (ty : FunctionType)
    (qs : List Prim) (m : Memory) : Prop :=
  ∃ call w', printFunctionCall opts site.functionVal ty site.args site.writer = some (call, w') ∧
    ∃ c args, run env call.operands none site.config = .fall c ∧ c.memory = m ∧
      c.stack = .int args :: .int ptr :: site.config.stack ∧
      ∃ method, Function.invoke ptr args ⟨m, t⟩ = .ok (method, qs) ⟨m, t⟩

/-- Both calls deliver the same parameters.  A hidden parameter is an address from which
`va_arg` reads the variadic arguments. -/
def Agrees (site : CallSite env opts tys ptr) (t : FunctionTable) (f : FunctionRef) : Prop :=
  ∃ ps m₁ qs m₂, site.ReceivesDirectly f ps m₁ ∧ site.ReceivesIndirectly t f.type qs m₂ ∧
    if f.type.isVarArg ∧ f.type.params ≠ [] then
      ∃ fixed a b vs, ps = fixed ++ [.int a] ∧ qs = fixed ++ [.int b] ∧
        List.Forall₂ (PacksAs env opts site.writer site.config.locals)
          (site.args.drop f.type.params.length) vs ∧
        ReadsVariadic m₁ a vs ∧ ReadsVariadic m₂ b vs
    else qs = ps

end CallSite

/-- The size of the packed arguments can be written as an immediate, neither the arguments
nor the parameters reach beyond the frame pointer above the block, and there are no variadic
arguments behind a hidden parameter. -/
structure CallFits (ty : FunctionType) (tys : List Ty) : Prop where
  immediate : packedSize tys < 128 ∨ 256 ≤ packedSize tys ∧ packedSize tys < 2 ^ 15
  packed : slotsEnd 0 (tys.filterMap Ty.prim) ≤ alignUp (packedSize tys) 8 + 8
  unpacked : slotsEnd 0 (paramTypes ty) ≤ alignUp (packedSize tys) 8 + 8
  no_variadic : ty.isVarArg → ty.params ≠ [] → tys.length = ty.params.length

/-! ## Pushed arguments -/

section push

variable {env : Env} {opts : GenerationOpts} {w : Writer} {locals : Locals}

/-- What printing may change, for the loads that follow. -/
structure Keeping (w w₁ : Writer) : Prop where
  fresh : w₁.Fresh
  localVars : w₁.localVars = w.localVars
  basicblockMap : w₁.basicblockMap = w.basicblockMap

theorem Keeping.emitted {w₁ w₂ : Writer} {is : Code} (h : Keeping w w₁) (hemit : Emitted w₁ w₂ is) :
    Keeping w w₂ :=
  ⟨hemit.fresh h.fresh, hemit.localVars.trans h.localVars,
    hemit.basicblockMap.trans h.basicblockMap⟩

theorem run_printArguments {args : List Value} {xs : List Val}
    (h : List.Forall₂ (Operand env opts w locals) args xs) {w₁ : Writer} (hw₁ : Keeping w w₁) :
    ∃ is w₂, printArguments opts args w₁ = some (is, w₂) ∧ Keeping w w₂ ∧
      ∀ c : Config, c.locals = locals →
        run env is none c = .fall { c with stack := xs.reverse ++ c.stack } := by
  induction h generalizing w₁ with
  | nil => exact ⟨[], w₁, rfl, hw₁, fun c _ => rfl⟩
  | @cons v x args xs hhead _ ih =>
      obtain ⟨load, w₂, hload, hemit, hrun⟩ := hhead w₁ hw₁.fresh hw₁.localVars hw₁.basicblockMap
      obtain ⟨rest, w₃, hrest, hw₃, hrunrest⟩ := ih (hw₁.emitted hemit)
      refine ⟨load ++ rest, w₃, ?_, hw₃, fun c hlocals => ?_⟩
      · simp only [printArguments, emit_bind, emit_pure, hload, hrest, Option.bind_some]
      · rw [run_append_of_fall (hrun c hlocals), hrunrest (c.push x) hlocals]
        simp [Config.push]

end push

end Llxvm.Backend
