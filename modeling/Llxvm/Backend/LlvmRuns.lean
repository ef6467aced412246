import Llxvm.Backend.BlockTexts
import Llxvm.Backend.EdgeRuns
import Llxvm.Backend.MethodRuns

/-!
# Runs of functions and their methods

From a block on, the text of a method follows the function step by step: behind the lines of each
instruction the memory is that of the function, and the local variables hold its values.
-/

namespace Llxvm.Backend

open Llxvm.Jvm Llxvm.Runtime LabelledCode

/-! ## Exact states -/

/-- The branches of a function, with all of its values. -/
def FunctionDef.edges (f : FunctionDef) : Function := ⟨f.locals, f.branches.phis⟩

/-- The writer translates the operation as LLVM means it.  A direct call has the arguments of the
function, and is not one of `setjmp`. -/
def Operation.ExactIn (env : Env) (f : FunctionDef) (values : Values) : Operation → Prop
  | .ret v => ∀ u ∈ v, u.Storable env
  | .br inst => (∀ u ∈ inst.condition, u.Storable env) ∧
      ∀ s, llvmTaken env values inst = some s → EdgeExact env values inst.parent (f.edges.phis s)
  | .call (.const (.function g)) _ args => g.name ≠ "setjmp" ∧ g.type.isVarArg = false ∧
      args.map Value.type = g.type.params ∧ ∀ v ∈ args, v.Exact env
  | op => op.Exact env values

/-- What is done next is translated as LLVM means it. -/
def LlvmState.Exact (env : Env) (f : FunctionDef) (s : LlvmState) : Prop :=
  ∀ inst ∈ s.rest.head?, inst.op.ExactIn env f s.values

/-! ## Values of operations -/

theorem Ready.fresh {vars : List Local} {w : Writer} (h : Ready vars w) : w.Fresh := by
  intro l hl u hu
  have hold := h.last l hl
  cases l <;> cases hu <;> exact hold

section operations

variable {env : Env} {math : MathFunction → List (BitVec 64) → BitVec 64} {call : MethodCalls}
  {opts : GenerationOpts} {f : FunctionDef} {vaArgNum : ℕ} {w w' : Writer} {values : Values}
  {locals : Locals} {m m' : Memory} {x : Option LlvmVal} {ls : List Line}

theorem Evaluates.linesRun {code : Code} (h : Evaluates env locals code m (x, m')) :
    ∃ y, Option.Rel LlvmVal.StoredFrom x y ∧ LinesRun (methodEnv env math call) (lines code)
      ⟨locals, [], m⟩ ⟨locals, y.toList, m'⟩ := by
  cases x with
  | none => exact ⟨none, .none, .of_fall (h [])⟩
  | some x =>
      obtain ⟨y, hstored, hrun⟩ := h
      exact ⟨some y, .some hstored, .of_fall (hrun [])⟩

variable (hldc : opts.wideLdc = false) (held : values.Held f.locals w locals) (hw : w.Fresh)

include hldc held hw

theorem linesRun_fneg {v : Value} (hv : v.In f.locals) (hexact : v.Exact env)
    (hop : llvmOperation env values m (.fneg v) = some (x, m'))
    (hprint : printOperation opts f vaArgNum (.fneg v) w = some (ls, w')) :
    ∃ y, Option.Rel LlvmVal.StoredFrom x y ∧ LinesRun (methodEnv env math call) ls
      ⟨locals, [], m⟩ ⟨locals, y.toList, m'⟩ := by
  obtain ⟨a, ha, hop⟩ := Option.bind_eq_some_iff.mp hop
  obtain ⟨z, hz, heq⟩ := Option.bind_eq_some_iff.mp hop
  cases heq
  obtain ⟨is, w₁, his, h₁⟩ := emit_bind_eq_some hprint
  cases h₁
  obtain ⟨hpush, -, hty⟩ := pushes_of_exact hldc held hv hexact ha (.refl hw) his
  refine ⟨some z.represent, .some z.represent_storedFrom, ?_⟩
  apply (LinesRun.of_fall (hpush [] m)).append
  apply LinesRun.simple
  intro x'
  change simpleEffect math _ _ = some x' ↔ _
  rw [← hty]
  cases a <;> cases hz <;> exact (Option.some_inj.trans eq_comm)

/-- Behind the lines of an operation its value is on the stack. -/
theorem linesRun_operation {op : Operation} (hin : ∀ v ∈ op.operands, v.In f.locals)
    (hexact : op.Exact env values) (hop : llvmOperation env values m op = some (x, m'))
    (hprint : printOperation opts f vaArgNum op w = some (ls, w')) :
    ∃ y, Option.Rel LlvmVal.StoredFrom x y ∧ LinesRun (methodEnv env math call) ls
      ⟨locals, [], m⟩ ⟨locals, y.toList, m'⟩ := by
  have hcode : ∀ {x' : Emit Code}, (do return lines (← x') : Emit (List Line)) w =
      some (ls, w') →
      (∀ code w₁, x' w = some (code, w₁) → Evaluates env locals code m (x, m')) →
      ∃ y, Option.Rel LlvmVal.StoredFrom x y ∧ LinesRun (methodEnv env math call) ls
        ⟨locals, [], m⟩ ⟨locals, y.toList, m'⟩ := by
    intro x' hx heval
    obtain ⟨code, w₁, hcode, h₁⟩ := emit_bind_eq_some hx
    cases h₁
    exact (heval code w' hcode).linesRun
  cases op with
  | arithmetic op left right =>
      apply hcode hprint
      intro code w₁
      exact evaluates_arithmetic hldc held hw (hin left (by simp [Operation.operands]))
        (hin right (by simp [Operation.operands])) hexact hop
  | fneg v =>
      exact linesRun_fneg hldc held hw (hin v (by simp [Operation.operands])) hexact hop hprint
  | cast op v ty =>
      apply hcode hprint
      intro code w₁
      exact evaluates_cast hldc held hw (hin v (by simp [Operation.operands])) hexact hop
  | cmp pred left right =>
      apply hcode hprint
      intro code w₁
      exact evaluates_cmp hldc held hw (hin left (by simp [Operation.operands]))
        (hin right (by simp [Operation.operands])) hexact hop
  | select cond trueVal falseVal =>
      apply hcode hprint
      intro code w₁
      exact evaluates_select hldc held hw (hin cond (by simp [Operation.operands]))
        (hin trueVal (by simp [Operation.operands])) (hin falseVal (by simp [Operation.operands]))
        hexact hop
  | load address ty =>
      apply hcode hprint
      intro code w₁
      exact evaluates_load hldc held hw (hin address (by simp [Operation.operands])) hexact hop
  | store address val =>
      apply hcode hprint
      intro code w₁
      exact evaluates_store hldc held hw (hin address (by simp [Operation.operands]))
        (hin val (by simp [Operation.operands])) hexact hop
  | getElementPtr v indices =>
      apply hcode hprint
      intro code w₁
      refine evaluates_gep hldc held hw (hin v (by simp [Operation.operands])) (fun i hi => ?_)
        hexact hop
      exact hin i.2 (List.mem_cons_of_mem v (List.mem_map_of_mem hi))
  | alloca ty arraySize =>
      apply hcode hprint
      intro code w₁
      exact evaluates_alloca hldc held hw (hin arraySize (by simp [Operation.operands])) hexact hop
  | intrinsic inst =>
      cases inst with
      | vaEnd =>
          cases hop
          cases hprint
          exact ⟨none, .none, .nil _⟩
      | ignored =>
          cases hop
          cases hprint
          exact ⟨none, .none, .nil _⟩
      | _ => cases hop
  | _ => cases hop

/-- The calls of the methods do what those of the functions do. -/
def CallsAgree (calls : Calls) (call : MethodCalls) : Prop :=
  ∀ {g xs m x m'}, calls g xs m x m' → xs.map LlvmVal.type = g.type.params →
    g.type.isVarArg = false → ∀ locals s, ∃ y, Option.Rel LlvmVal.StoredFrom x y ∧
      ∀ e, call (.method (if g.external then none else some .self) (methodName g))
        ⟨locals, (xs.map LlvmVal.represent).reverse ++ s, m⟩ e ↔
          e = .next ⟨locals, y.toList ++ s, m'⟩

theorem linesRun_call {calls : Calls} (hcalls : CallsAgree calls call) {g : FunctionRef}
    {ty : FunctionType} {args : List Value} {xs : List LlvmVal} (hin : ∀ v ∈ args, v.In f.locals)
    (hexact : (Operation.call (.const (.function g)) ty args).ExactIn env f values)
    (hargs : args.mapM (llvmOperand env values) = some xs) (hcall : calls g xs m x m')
    (hprint : printCall opts (.const (.function g)) ty args w = some (ls, w')) :
    ∃ y, Option.Rel LlvmVal.StoredFrom x y ∧ LinesRun (methodEnv env math call) ls
      ⟨locals, [], m⟩ ⟨locals, y.toList, m'⟩ := by
  obtain ⟨hname, hvararg, htypes, hexact⟩ := hexact
  have hloads : List.Forall₂ (fun v x => Operand env opts w locals v x.represent ∧
      x.type = v.type) args xs := by
    refine ((List.forall₂_and_left _ _).mpr ⟨fun v hv => And.intro (hin v hv) (hexact v hv),
      forall₂_mapM hargs⟩).imp ?_
    intro v x h
    exact operand_of_exact hldc held h.1.1 h.1.2 h.2
  have hxs : xs.map LlvmVal.type = g.type.params := by
    rw [← htypes]
    clear hin hargs hcall hprint htypes hexact
    induction hloads with
    | nil => rfl
    | cons h _ ih => rw [List.map_cons, List.map_cons, h.2, ih]
  have hoperands : List.Forall₂ (Operand env opts w locals) args (xs.map LlvmVal.represent) :=
    List.forall₂_map_right_iff.mpr (hloads.imp fun _ _ h => h.1)
  have hlen : args.length = g.type.params.length := by rw [← htypes, List.length_map]
  obtain ⟨code, w₁, hcode, h₁⟩ := emit_bind_eq_some hprint
  obtain ⟨after, w₂, hafter, h₂⟩ := emit_bind_eq_some h₁
  cases h₂
  have hset : (Operation.call (.const (.function g)) ty args).isSetjmp = false := by
    simpa [Operation.isSetjmp] using hname
  rw [hset] at hafter
  cases hafter
  obtain ⟨fixed, w₃, hfixed, h₃⟩ := emit_bind_eq_some hcode
  obtain ⟨packed, w₄, hpacked, h₄⟩ := emit_bind_eq_some h₃
  cases h₄
  rw [printVariadic, hvararg] at hpacked
  cases hpacked
  rw [← hlen, List.take_length] at hfixed
  obtain ⟨is, w₅, his, -, hrun⟩ := run_printArguments hoperands (.refl hw)
  cases hfixed.symm.trans his
  obtain ⟨y, hstored, hmethod⟩ := hcalls hcall hxs hvararg locals []
  refine ⟨y, hstored, ?_⟩
  rw [List.append_nil, lines_nil, List.append_nil]
  apply (LinesRun.of_fall (hrun ⟨locals, [], m⟩ rfl)).append
  apply LinesRun.call
  change ∀ x, call _ _ x ↔ _
  simpa only [List.append_nil] using hmethod

end operations

/-! ## Instructions -/

/-- The value is stored where it is held. -/
theorem Values.Held.set {vars : List Local} {w : Writer} {values : Values} {locals : Locals}
    (held : values.Held vars w locals) (hids : ∀ u ∈ vars, ∀ v ∈ vars, u.id = v.id → u = v)
    {v : Local} (hv : v ∈ vars) {x : LlvmVal} (hty : x.type = v.ty) :
    Values.Held vars w (Function.update values v.id (some x))
      (locals.set (w.slot v) x.represent) := by
  have hrep := x.represent_storedFrom
  rw [LlvmVal.StoredFrom, hty] at hrep
  refine ⟨held.slots, held.valuation.set held.slots hids hv hrep.1 hrep.2, fun u hu z hz => ?_⟩
  by_cases hid : u.id = v.id
  · obtain rfl := hids u hu v hv hid
    rw [Function.update_self] at hz
    cases hz
    exact ⟨hty, Locals.set_self _ _ _⟩
  · rw [Function.update_of_ne hid] at hz
    rw [held.valuation.set_of_ne held.slots hv hrep.1 hu hid]
    exact held.value u hu z hz

/-- The values are held in the earlier state, too. -/
theorem Values.Held.of_has {vars : List Local} {w w₁ : Writer} {values values' : Values}
    {locals locals' : Locals} (held : values.Held vars w locals)
    (hhas : ∀ v n, w.Has v n → w₁.Has v n) (held' : values'.Held vars w₁ locals') :
    values'.Held vars w locals' := by
  refine held'.congr fun v hv n hn => ?_
  have hslot := held.slots.has v hv
  have heq : n = w.slot v := by
    rw [← (hhas v _ hslot).slot_eq]
    exact hn.slot_eq.symm
  exact heq ▸ hslot

section instructions

variable {env : Env} {math : MathFunction → List (BitVec 64) → BitVec 64} {call : MethodCalls}
  {opts : GenerationOpts} {f : FunctionDef} {vaArgNum : ℕ} {w w' : Writer} {values values' : Values}
  {locals : Locals} {m : Memory} {x : Option LlvmVal} {y : Option Val}

/-- The result is stored. -/
theorem run_printResult (hids : ∀ u ∈ f.locals, ∀ v ∈ f.locals, u.id = v.id → u = v)
    (held : values.Held f.locals w locals) {result : Option Local}
    (hresult : ∀ v ∈ result, v ∈ f.locals) (hassigns : Assigns result x values values')
    (hstored : Option.Rel LlvmVal.StoredFrom x y) {store : Code}
    (hprint : printResult opts result w = some (store, w')) :
    ∃ locals', run env store none ⟨locals, y.toList, m⟩ = .fall ⟨locals', [], m⟩ ∧
      values'.Held f.locals w locals' := by
  cases hassigns with
  | nothing =>
      cases hstored
      cases hprint
      exact ⟨locals, rfl, held⟩
  | @result v x _ hty =>
      cases hstored with
      | some hstored =>
          rename_i y
          have hv : v ∈ f.locals := hresult v rfl
          have hprint' : printValueStore opts v w = some (store, w') := hprint
          rw [printValueStore_eq (held.slots.has v hv)] at hprint'
          cases hprint'
          rw [LlvmVal.StoredFrom, hty] at hstored
          refine ⟨_, run_store hstored.1 _ _ ⟨locals, [], m⟩, ?_⟩
          rw [hstored.2]
          exact held.set hids hv hty

variable (hf : f.WellFormed)

include hf

variable (math) in
/-- Behind the lines of an instruction its value is held. -/
theorem linesRun_inst {calls : Calls} (hldc : opts.wideLdc = false) (hcalls : CallsAgree calls call)
    {b : BasicBlock} (hb : b ∈ f.blocks) {inst : Inst} (hinst : inst ∈ b.insts)
    (hw : f.Ready vaArgNum w) (held : values.Held f.locals w locals)
    (hexact : inst.op.ExactIn env f values) {m' : Memory}
    (hdoes : llvmOperation env values m inst.op = some (x, m') ∨
      ∃ g ty args xs, inst.op = .call (.const (.function g)) ty args ∧
        args.mapM (llvmOperand env values) = some xs ∧ calls g xs m x m')
    (hassigns : Assigns inst.result x values values') {ls : List Line}
    (hprint : printInst opts f vaArgNum inst w = some (ls, w')) :
    ∃ locals', LinesRun (methodEnv env math call) ls ⟨locals, [], m⟩ ⟨locals', [], m'⟩ ∧
      values'.Held f.locals w locals' := by
  have hin := hf.operands b hb inst hinst
  obtain ⟨code, w₁, hcode, h₁⟩ := emit_bind_eq_some hprint
  obtain ⟨store, w₂, hstore, h₂⟩ := emit_bind_eq_some h₁
  cases h₂
  have hop : ∃ y, Option.Rel LlvmVal.StoredFrom x y ∧ LinesRun (methodEnv env math call) code
      ⟨locals, [], m⟩ ⟨locals, y.toList, m'⟩ := by
    rcases hdoes with hop | ⟨g, ty, args, xs, hop, hargs, hcall⟩
    · have hop_exact : inst.op.Exact env values := by
        unfold Operation.ExactIn at hexact
        split at hexact
        -- returns, branches and calls are no operations of one block
        next h =>
          rw [h] at hop
          cases hop
        next h =>
          rw [h] at hop
          cases hop
        next h =>
          rw [h] at hop
          cases hop
        next => exact hexact
      exact linesRun_operation hldc held hw.toReady.fresh hin hop_exact hop hcode
    · rw [hop] at hexact hin hcode
      exact linesRun_call hldc held hw.toReady.fresh hcalls hin hexact hargs hcall hcode
  obtain ⟨y, hstored, hlines⟩ := hop
  -- the local variables are the same behind the operation
  have hhas : ∀ v n, w.Has v n → w₁.Has v n := fun v n =>
    (printsOp_printOperation hf hb hinst hw hcode).toOps.has
  have held₁ : values.Held f.locals w₁ locals := held.congr fun v _ n => hhas v n
  obtain ⟨locals', hrun, held'⟩ := run_printResult hf.locals held₁
    (fun v hv => result_mem hb hinst hv) hassigns hstored hstore
  exact ⟨locals', hlines.append (.of_fall hrun), held.of_has hhas held'⟩

end instructions

/-! ## Branches -/

section branches

variable {env : Env} {opts : GenerationOpts} {f : FunctionDef} {w w' : Writer} {values : Values}
  {locals : Locals} {m : Memory}

theorem printBranchInstruction_edges (inst : BranchInst) :
    printBranchInstruction opts f.branches inst = printBranchInstruction opts f.edges inst := by
  cases inst <;> rfl

/-- A branch comes to the label of the block that LLVM takes, where the PHI nodes have their
values. -/
theorem run_branch (hedges : f.edges.WellFormed) (hldc : opts.wideLdc = false) (hw : w.Fresh)
    (held : values.Held f.locals w locals) {inst : BranchInst}
    (hin : ∀ v ∈ inst.condition, v.In f.locals) (hexact : (Operation.br inst).ExactIn env f values)
    {s : ℕ} (htaken : llvmTaken env values inst = some s) {is : Code}
    (hprint : printBranchInstruction opts f.branches inst w = some (is, w')) :
    ∃ locals', run env is none ⟨locals, [], m⟩ = .jump (.block s) ⟨locals', [], m⟩ ∧
      (values.enter env (f.edges.phis s) inst.parent).Held f.locals w locals' := by
  obtain ⟨hcond, hedge⟩ := hexact
  rw [printBranchInstruction_edges] at hprint
  have htakes : TakesEdge env opts f.edges w inst.parent s is ⟨locals, [], m⟩ ⟨locals, [], m⟩ := by
    cases inst with
    | unconditional parent dest =>
        cases htaken
        exact takesEdge_printBranch (.refl hw) hprint
    | conditional parent cond trueBlock falseBlock =>
        obtain ⟨b, hb, heq⟩ := Option.bind_eq_some_iff.mp htaken
        obtain rfl : (if b = true then trueBlock else falseBlock) = s := Option.some.inj heq
        obtain ⟨y, hoperand, hy⟩ := operand_of_bit hldc held (hin cond rfl) (hcond cond rfl) hb
        obtain ⟨load, w₁, hload, h₁⟩ := emit_bind_eq_some hprint
        obtain ⟨br, w₂, hbr, h₂⟩ := emit_bind_eq_some h₁
        cases h₂
        obtain ⟨hpush, hw₁, -⟩ := hoperand.pushes (.refl hw) hload
        obtain ⟨copies, w₃, w₄, hw₃, hcopies, hrun⟩ := takesEdge_printBranchIf
          (c := ⟨locals, [], m⟩) hedges held.slots held.valuation hw₁ y hbr
        have hblock : (if b = true then trueBlock else falseBlock) =
            if y = 0#32 then falseBlock else trueBlock := by
          cases b <;> simp [hy]
        rw [hblock]
        refine ⟨copies, w₃, w₄, hw₃, hcopies, fun c' hfall => ?_⟩
        rw [run_append_of_fall (hpush [] m)]
        exact hrun c' hfall
  obtain ⟨copies, w₁, w₂, hw₁, hcopies, hrun⟩ := htakes
  obtain ⟨⟨locals', stack, memory⟩, hfall, hstack, hmemory, held'⟩ := (hedge s htaken).enter hldc
    hedges (c := ⟨locals, [], m⟩) held hw hw₁ hcopies
  cases hstack
  cases hmemory
  exact ⟨locals', hrun _ hfall, held'⟩

end branches

/-! ## Runs -/

/-- The text has all blocks of the function, printed with the local variables of the state `w`. -/
def HasBlocks (opts : GenerationOpts) (f : FunctionDef) (vaArgNum : ℕ) (w : Writer)
    (all : List Line) : Prop :=
  ∀ b ∈ f.blocks, ∃ (pre post : List Line) (insts : List (Inst × List Line)),
    all = pre ++ .instr (.label (.block b.id)) :: (insts.flatMap Prod.snd ++ post) ∧
    insts.map Prod.fst = b.insts ∧ ∀ p ∈ insts, MadeBy opts f vaArgNum w p

/-- The method is in front of the lines of what the function does next, with its values and its
memory. -/
structure Follows (opts : GenerationOpts) (f : FunctionDef) (vaArgNum : ℕ) (w : Writer)
    (all : List Line) (s : LlvmState) (p : List Line × Config) : Prop where
  suffix : p.1 <:+ all
  text : ∃ (insts : List (Inst × List Line)) (post : List Line),
    p.1 = insts.flatMap Prod.snd ++ post ∧ insts.map Prod.fst = s.rest ∧
    ∀ q ∈ insts, MadeBy opts f vaArgNum w q
  block : ∃ b ∈ f.blocks, b.id = s.block ∧ s.rest ⊆ b.insts
  stack : p.2.stack = []
  memory : p.2.memory = s.memory
  held : s.values.Held f.locals w p.2.locals

section runs

variable {env : Env} {math : MathFunction → List (BitVec 64) → BitVec 64} {call : MethodCalls}
  {calls : Calls} {opts : GenerationOpts} {f : FunctionDef} {vaArgNum : ℕ} {w : Writer}
  {all : List Line}

/-- The next instruction is printed where the values have the same local variables. -/
theorem Follows.exists_next {b : ℕ} {inst : Inst} {rest : List Inst} {values : Values} {m : Memory}
    {p : List Line × Config} (h : Follows opts f vaArgNum w all ⟨b, inst :: rest, values, m⟩ p) :
    ∃ ls ps locals w₁ w₂, p = (ls ++ ps, ⟨locals, [], m⟩) ∧ f.Ready vaArgNum w₁ ∧
      (∀ v n, w.Has v n → w₁.Has v n) ∧ printInst opts f vaArgNum inst w₁ = some (ls, w₂) ∧
      values.Held f.locals w₁ locals ∧ ∀ values' locals' m', values'.Held f.locals w locals' →
        Follows opts f vaArgNum w all ⟨b, rest, values', m'⟩ (ps, ⟨locals', [], m'⟩) := by
  obtain ⟨ls, locals, stack, memory⟩ := p
  obtain ⟨hsuffix, ⟨insts, post, htext, hinsts, hmade⟩, ⟨block, hblock, hid, hsub⟩, hstack, hmemory,
    held⟩ := h
  cases hstack
  cases hmemory
  cases insts with
  | nil => cases hinsts
  | cons q insts =>
      obtain ⟨hq, hrest⟩ := List.cons.inj hinsts
      obtain ⟨w₁, w₂, hw₁, hhas, hprint⟩ := hmade q List.mem_cons_self
      simp only [List.flatMap_cons, List.append_assoc] at htext
      subst htext
      refine ⟨q.2, insts.flatMap Prod.snd ++ post, locals, w₁, w₂, rfl, hw₁, hhas, hq ▸ hprint,
        held.congr fun v _ n => hhas v n, fun values' locals' m' held' => ?_⟩
      exact ⟨(List.suffix_append _ _).trans hsuffix,
        ⟨insts, post, rfl, hrest, fun q' hq' => hmade q' (List.mem_cons_of_mem q hq')⟩,
        ⟨block, hblock, hid, fun i hi => hsub (List.mem_cons_of_mem inst hi)⟩, rfl, rfl, held'⟩

variable (hf : f.WellFormed) (hedges : f.edges.WellFormed) (hldc : opts.wideLdc = false)
  (hcalls : CallsAgree calls call) (hblocks : HasBlocks opts f vaArgNum w all)

include hf hedges hldc hcalls hblocks

/-- The method follows each step of the function. -/
theorem Follows.step {s s' : LlvmState} (hstep : LlvmStep env calls f s s') (hexact : s.Exact env f)
    {p : List Line × Config} (h : Follows opts f vaArgNum w all s p) :
    ∃ q, (methodMachine (methodEnv env math call)).Runs all p q ∧
      Follows opts f vaArgNum w all s' q := by
  have hdoes : ∀ {b inst rest values values' m m' x},
      Follows opts f vaArgNum w all ⟨b, inst :: rest, values, m⟩ p →
      (LlvmState.mk b (inst :: rest) values m).Exact env f →
      (llvmOperation env values m inst.op = some (x, m') ∨
        ∃ g ty args xs, inst.op = .call (.const (.function g)) ty args ∧
          args.mapM (llvmOperand env values) = some xs ∧ calls g xs m x m') →
      Assigns inst.result x values values' →
      ∃ q, (methodMachine (methodEnv env math call)).Runs all p q ∧
        Follows opts f vaArgNum w all ⟨b, rest, values', m'⟩ q := by
    intro b inst rest values values' m m' x h hexact hdoes hassigns
    obtain ⟨block, hblock, -, hsub⟩ := h.block
    have held := h.held
    have hsuffix := h.suffix
    obtain ⟨ls, ps, locals, w₁, w₂, rfl, hw₁, hhas, hprint, held₁, hnext⟩ := h.exists_next
    obtain ⟨locals', hlines, held'⟩ := linesRun_inst math hf hldc hcalls hblock
      (hsub List.mem_cons_self) hw₁ held₁ (hexact inst rfl) hdoes hassigns hprint
    exact ⟨_, hlines all ps hsuffix, hnext values' locals' m' (held.of_has hhas held')⟩
  cases hstep with
  | compute hop hassigns => exact hdoes h hexact (.inl hop) hassigns
  | call hop hargs hcall hassigns =>
      exact hdoes h hexact (.inr ⟨_, _, _, _, hop, hargs, hcall⟩) hassigns
  | @branch _ inst _ values m br block hop hparent htaken hblock =>
      obtain ⟨source, hsource, -, hsub⟩ := h.block
      have held := h.held
      have hsuffix := h.suffix
      obtain ⟨ls, ps, locals, w₁, w₂, rfl, hw₁, hhas, hprint, held₁, -⟩ := h.exists_next
      obtain ⟨code, w₃, hcode, h₃⟩ := emit_bind_eq_some hprint
      obtain ⟨store, w₄, -, h₄⟩ := emit_bind_eq_some h₃
      cases h₄
      have hexact' := hexact inst rfl
      have hin := hf.operands source hsource inst (hsub List.mem_cons_self)
      rw [hop] at hexact' hin hcode
      obtain ⟨is, w₅, his, h₅⟩ := emit_bind_eq_some hcode
      cases h₅
      obtain ⟨locals', hrun, held'⟩ := run_branch (m := m) hedges hldc hw₁.toReady.fresh held₁
        (fun v hv => hin v (by simpa [Operation.operands] using hv)) hexact' htaken his
      have hphis : f.edges.phis block.id = block.phis := by
        simp only [FunctionDef.edges, FunctionDef.branches, hf.block_eq hblock, Option.map_some,
          Option.getD_some]
      obtain ⟨pre, post, insts, htext, hinsts, hmade⟩ := hblocks block hblock
      -- the jump comes to the label of the block, which is the next line
      have hat : (methodMachine (methodEnv env math call)).At all (.block block.id)
          (.instr (.label (.block block.id)) :: (insts.flatMap Prod.snd ++ post)) :=
        LabelledCode.Machine.at_of_eq htext rfl
      rw [List.append_assoc] at hsuffix ⊢
      have hruns := (runs_of_jump (methodEnv env math call) hrun hsuffix hat).trans
        (.next (does_next rfl) _)
      rw [hphis, hparent] at held'
      refine ⟨_, hruns, (List.suffix_cons _ _).trans hat.1, ⟨insts, post, rfl, hinsts, hmade⟩,
        ⟨block, hblock, rfl, List.Subset.refl _⟩, rfl, rfl, held.of_has hhas held'⟩

variable (math) in
theorem Follows.steps {s s' : LlvmState} (hsteps : Relation.ReflTransGen
      (fun s s' => LlvmStep env calls f s s' ∧ s.Exact env f) s s') {p : List Line × Config}
    (h : Follows opts f vaArgNum w all s p) :
    ∃ q, (methodMachine (methodEnv env math call)).Runs all p q ∧
      Follows opts f vaArgNum w all s' q :=
  LabelledCode.Machine.Runs.simulates (fun hstep hfollows =>
    hfollows.step hf hedges hldc hcalls hblocks hstep.1 hstep.2) hsteps h

omit hf hedges hldc hcalls hblocks in
theorem run_destroyStackFrame_of_ok {m m' : Memory} (h : Memory.destroyStackFrame m = .ok () m')
    (locals : Locals) (stack : List Val) :
    run env [.invokestatic .destroyStackFrame] none ⟨locals, stack, m⟩ =
      .fall ⟨locals, stack, m'⟩ := by
  have hcall : (do Memory.destroyStackFrame; return none : MemM (Option Val)) m = .ok none m' := by
    simp only [bind, EStateM.bind, h]
    rfl
  exact run_invokestatic [] rfl rfl hcall locals stack

variable (math call) in
omit hedges hcalls hblocks in
/-- Where the function returns, the method leaves with what becomes the value. -/
theorem Follows.returns {s : LlvmState} {x : Option LlvmVal} {m' : Memory}
    (hreturns : LlvmReturns env s x m') (hexact : s.Exact env f) {p : List Line × Config}
    (h : Follows opts f vaArgNum w all s p) :
    ∃ y line rest c, Option.Rel LlvmVal.StoredFrom x y ∧
      (methodMachine (methodEnv env math call)).Runs all p (line :: rest, c) ∧
      (methodMachine (methodEnv env math call)).Does line c (.leave (y, m')) := by
  cases hreturns with
  | @void _ inst rest values m _ hop hframe =>
      have hsuffix := h.suffix
      obtain ⟨ls, ps, locals, w₁, w₂, rfl, -, -, hprint, -, -⟩ := h.exists_next
      obtain ⟨code, w₃, hcode, h₃⟩ := emit_bind_eq_some hprint
      obtain ⟨store, w₄, -, h₄⟩ := emit_bind_eq_some h₃
      cases h₄
      rw [hop] at hcode
      cases hcode
      simp only [lines, List.append_assoc] at hsuffix ⊢
      refine ⟨none, .simple "return", lines store ++ ps, ⟨locals, [], m'⟩, .none, ?_,
        does_simple (x := .leave (none, m')) fun _ => Option.some_inj.trans eq_comm⟩
      exact runs_of_fall _ (run_destroyStackFrame_of_ok hframe locals []) hsuffix
  | @value _ inst rest values m _ v x hop hv hframe =>
      obtain ⟨source, hsource, -, hsub⟩ := h.block
      have hsuffix := h.suffix
      obtain ⟨ls, ps, locals, w₁, w₂, rfl, hw₁, -, hprint, held₁, -⟩ := h.exists_next
      obtain ⟨code, w₃, hcode, h₃⟩ := emit_bind_eq_some hprint
      obtain ⟨store, w₄, -, h₄⟩ := emit_bind_eq_some h₃
      cases h₄
      have hexact' := hexact inst rfl
      have hin := hf.operands source hsource inst (hsub List.mem_cons_self)
      rw [hop] at hexact' hin hcode
      obtain ⟨is, w₅, his, h₅⟩ := emit_bind_eq_some hcode
      cases h₅
      obtain ⟨y, hoperand, hstored, hty⟩ := operand_of_storable hldc held₁
        (hin v List.mem_cons_self) (hexact' v rfl) hv
      obtain ⟨hpush, -, -⟩ := hoperand.pushes (.refl hw₁.toReady.fresh) his
      have hrun : run env (.invokestatic .destroyStackFrame :: is) none ⟨locals, [], m⟩ =
          .fall ⟨locals, [y], m'⟩ := by
        rw [← List.singleton_append, run_append_of_fall (run_destroyStackFrame_of_ok hframe _ _)]
        exact hpush [] m'
      have hletter : y.letter = v.type.letter := hty ▸ hstored.1
      simp only [List.append_assoc] at hsuffix ⊢
      refine ⟨some y, .simple (prefixText (getTypePrefix v.type true) ++ "return"),
        lines store ++ ps, ⟨locals, [y], m'⟩, .some hstored, ?_,
        does_simple (x := .leave (some y, m')) fun x' => ?_⟩
      · exact runs_of_fall _ hrun hsuffix
      · change simpleEffect math (prefixText v.type.letter ++ "return") _ = some x' ↔ _
        rw [← hletter]
        cases y with
        | ref r => rcases v.type.letter_cases with ⟨h | h, -⟩ | ⟨h | h, -⟩ <;> rw [h] at hletter <;>
            cases hletter
        | _ => exact Option.some_inj.trans eq_comm

end runs

end Llxvm.Backend
