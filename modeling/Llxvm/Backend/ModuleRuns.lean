import Llxvm.Backend.FunctionRuns

/-!
# Runs of modules

The functions of a module call each other by name, as their methods do, and functions of other
modules.  If the other modules agree on what their functions and methods do, so does this one,
however deep the calls are nested.
-/

namespace Llxvm.Backend

open Llxvm.Jvm Llxvm.Runtime LabelledCode

/-! ## Calls of methods -/

/-- What the caller gets of a result is narrowed to the type of the descriptor. -/
def narrow : TypeID → Val → Val
  | .Z, .int y => .int (y &&& 1#32)
  | .B, .int y => .int ((y.setWidth 8).signExtend 32)
  | .S, .int y => .int ((y.setWidth 16).signExtend 32)
  | _, y => y

theorem narrow_getTypeDescriptor (ty : Ty) (y : Val) :
    narrow (getTypeDescriptor ty false) y = normalize ty y := by
  cases y with
  | int y =>
      cases ty with
      | int w =>
          simp only [getTypeDescriptor, getTypeID, getBitWidth, normalize]
          split <;> simp_all [narrow]
      | _ => simp [getTypeDescriptor, getTypeID, getBitWidth, normalize, narrow]
  | _ => simp [narrow, normalize]

/-- The narrowed result becomes the same value. -/
theorem LlvmVal.StoredFrom.narrow {x : LlvmVal} {y : Val} (h : x.StoredFrom y) :
    x.StoredFrom (Backend.narrow (getTypeDescriptor x.type false) y) := by
  rw [narrow_getTypeDescriptor]
  obtain ⟨hletter, hnorm⟩ := h
  refine ⟨?_, ?_⟩
  · rw [letter_normalize, hletter]
  · rw [normalize_normalize, hnorm]

/-- A call takes the arguments from the stack, and leaves the result of the method there. -/
inductive MethodText.Invokes (env : LineEnv MethodResult) (m : MethodText) :
    Config → Effect MethodResult → Prop
  | returns {locals : Locals} {arguments stack : List Val} {memory memory' : Memory}
      {y : Option Val} {tr : List Line} (hlen : arguments.length = m.name.params.length)
      (hruns : (methodMachine env).Finishes m.lines none
        ⟨parameterLocals 0 arguments, [], memory⟩ tr (.inl (y, memory'))) :
      Invokes env m ⟨locals, arguments.reverse ++ stack, memory⟩
        (.next ⟨locals, (y.map (narrow m.name.ret)).toList ++ stack, memory'⟩)
  | throws {locals : Locals} {arguments stack : List Val} {memory : Memory} {e : Throwable}
      {c : Config} {tr : List Line} (hlen : arguments.length = m.name.params.length)
      (hruns : (methodMachine env).Finishes m.lines none
        ⟨parameterLocals 0 arguments, [], memory⟩ tr (.inr (e, c))) :
      Invokes env m ⟨locals, arguments.reverse ++ stack, memory⟩
        (.throw e ⟨locals, arguments.reverse ++ stack, c.memory⟩)

/-- A method with one result is called with this result only. -/
theorem MethodText.Computes.invokes_iff {env : LineEnv MethodResult} {m : MethodText}
    {arguments : List Val} {memory memory' : Memory} {x : Option LlvmVal}
    (h : m.Computes env arguments memory x memory')
    (hlen : arguments.length = m.name.params.length) : ∃ y, ResultFrom x y ∧
      ∀ locals stack e, m.Invokes env ⟨locals, arguments.reverse ++ stack, memory⟩ e ↔
        e = .next ⟨locals, (y.map (narrow m.name.ret)).toList ++ stack, memory'⟩ := by
  obtain ⟨y, hresult, ⟨tr, hfinishes⟩, hunique⟩ := h
  refine ⟨y, hresult, fun locals stack e => ⟨fun hinvokes => ?_, ?_⟩⟩
  · -- the arguments are as many as the method has parameters
    have hinj : ∀ {arguments' stack' : List Val}, arguments'.length = m.name.params.length →
        arguments'.reverse ++ stack' = arguments.reverse ++ stack →
          arguments' = arguments ∧ stack' = stack := by
      intro arguments' stack' hlen' heq
      obtain ⟨hargs, hstack⟩ := List.append_inj heq (by simp [hlen, hlen'])
      exact ⟨List.reverse_injective hargs, hstack⟩
    generalize hc : Config.mk locals (arguments.reverse ++ stack) memory = c at hinvokes
    cases hinvokes with
    | returns hlen' hruns =>
        injection hc with hlocals hstack hmemory
        subst hlocals hmemory
        obtain ⟨rfl, rfl⟩ := hinj hlen' hstack.symm
        cases hunique _ _ hruns
        rfl
    | throws hlen' hruns =>
        injection hc with hlocals hstack hmemory
        subst hmemory
        obtain ⟨rfl, -⟩ := hinj hlen' hstack.symm
        cases hunique _ _ hruns
  · rintro rfl
    exact .returns hlen hfinishes

/-- The calls of a class, nested to a depth of `n` at most; those of other classes are given. -/
def methodCalls (env : Env) (math : MathFunction → List (BitVec 64) → BitVec 64)
    (methods : List MethodText) (outer : MethodCalls) : ℕ → MethodCalls
  | 0 => outer
  | n + 1 => fun callee c e => outer callee c e ∨ ∃ m ∈ methods,
      callee = .method (some .self) m.name ∧
        m.Invokes (methodEnv env math (methodCalls env math methods outer n)) c e

/-- The calls of the functions of a module; the result has the type of the function. -/
def llvmCalls (env : Env) (functions : List FunctionDef) (outer : Calls) : ℕ → Calls
  | 0 => outer
  | n + 1 => fun g xs memory x memory' => outer g xs memory x memory' ∨ ∃ f ∈ functions,
      f.ref = g ∧ LlvmRuns env (llvmCalls env functions outer n) f (LlvmState.Exact env f) xs memory
        x memory' ∧ x.map LlvmVal.type = g.type.returnType

/-- The calls `calls'` do what the calls `calls` do. -/
def Calls.Extends (calls' calls : Calls) : Prop :=
  ∀ g xs memory x memory', calls g xs memory x memory' → calls' g xs memory x memory'

section extension

variable {env : Env} {calls calls' : Calls} (hcalls : calls'.Extends calls)

include hcalls

theorem LlvmStep.mono {f : FunctionDef} {s s' : LlvmState} (h : LlvmStep env calls f s s') :
    LlvmStep env calls' f s s' := by
  cases h with
  | compute hop hassigns => exact .compute hop hassigns
  | call hop hargs hcall hassigns => exact .call hop hargs (hcalls _ _ _ _ _ hcall) hassigns
  | branch hop hparent htaken hblock => exact .branch hop hparent htaken hblock

theorem LlvmRuns.mono {f : FunctionDef} {P : LlvmState → Prop} {xs : List LlvmVal}
    {memory memory' : Memory} {x : Option LlvmVal}
    (h : LlvmRuns env calls f P xs memory x memory') :
    LlvmRuns env calls' f P xs memory x memory' := by
  obtain ⟨s, s', henters, hsteps, hlast, hreturns⟩ := h
  refine ⟨s, s', henters, ?_, hlast, hreturns⟩
  exact hsteps.lift id fun _ _ hstep => ⟨hstep.1.mono hcalls, hstep.2⟩

end extension

/-- Calls that are nested less deeply are calls. -/
theorem llvmCalls_extends (env : Env) (functions : List FunctionDef) (outer : Calls) {n k : ℕ}
    (hk : n ≤ k) :
    (llvmCalls env functions outer k).Extends (llvmCalls env functions outer n) := by
  -- one more level around the calls of a depth
  have hsucc : ∀ j, (llvmCalls env functions outer (j + 1)).Extends
      (llvmCalls env functions outer j) := by
    intro j
    induction j with
    | zero => exact fun _ _ _ _ _ h => .inl h
    | succ j ih =>
        rintro g xs memory x memory' (h | ⟨f, hf, href, hruns, htype⟩)
        · exact .inl h
        · exact .inr ⟨f, hf, href, hruns.mono ih, htype⟩
  induction hk with
  | refl => exact fun _ _ _ _ _ h => h
  | @step k _ ih => exact fun g xs memory x memory' h => hsucc k _ _ _ _ _ (ih _ _ _ _ _ h)

/-! ## Modules -/

/-- Functions that LLVM accepts, with the methods that are printed for them. -/
structure TranslatedModule (opts : GenerationOpts) where
  parts : List (FunctionDef × MethodText)
  verified : ∀ p ∈ parts, p.1.Verified
  internal : ∀ p ∈ parts, p.1.ref.external = false
  params : ∀ p ∈ parts, p.1.args.map Local.ty = p.1.ref.type.params
  printed : ∀ p ∈ parts, ∃ curBasicblockMapId maxOperands w w', w.Reachable opts ∧
    printFunction opts false p.1 curBasicblockMapId maxOperands w = some (p.2, w')
  names : (parts.map fun p => p.1.ref.name).Nodup

namespace TranslatedModule

variable {opts : GenerationOpts} (M : TranslatedModule opts)

def functions : List FunctionDef := M.parts.map Prod.fst

def methods : List MethodText := M.parts.map Prod.snd

theorem name_eq {p : FunctionDef × MethodText} (hp : p ∈ M.parts) :
    p.2.name = p.1.methodName := by
  obtain ⟨_, _, w, w', hw, hprint⟩ := M.printed p hp
  have hwell := (M.verified p hp).toWellFormed
  obtain ⟨_, _, _, hparts, -⟩ := printFunction_parts hwell hw.ready.2 hprint
  exact hparts.name

/-- Methods of the same name are those of one function. -/
theorem method_unique {p q : FunctionDef × MethodText} (hp : p ∈ M.parts) (hq : q ∈ M.parts)
    (h : p.2.name = q.2.name) : p = q := by
  rw [M.name_eq hp, M.name_eq hq] at h
  have hname : p.1.ref.name = q.1.ref.name := congrArg MethodName.name h
  exact List.inj_on_of_nodup_map M.names hp hq hname

/-- A call of a function names its method, unless it is variadic. -/
theorem methodName_ref {p : FunctionDef × MethodText} (hp : p ∈ M.parts)
    (hvararg : p.1.ref.type.isVarArg = false) : methodName p.1.ref = p.2.name := by
  rw [M.name_eq hp, methodName, FunctionDef.methodName, getCallSignature, declaredParams, hvararg,
    ← M.params p hp]
  simp

section calls

variable {env : Env} {math : MathFunction → List (BitVec 64) → BitVec 64} {outer : Calls}
  {outerMethods : MethodCalls} (hldc : opts.wideLdc = false)
  (houter : CallsAgree outer outerMethods)
  (hapart : ∀ m ∈ M.methods, ∀ c e, ¬ outerMethods (.method (some .self) m.name) c e)
  (hexternal : ∀ g xs memory x memory', outer g xs memory x memory' → g.external = true)

include hldc houter hapart hexternal

/-- The calls of the methods do what those of the functions do. -/
theorem callsAgree (n : ℕ) : CallsAgree (llvmCalls env M.functions outer n)
    (methodCalls env math M.methods outerMethods n) := by
  induction n with
  | zero => exact houter
  | succ n ih =>
      intro g xs memory x memory' hcall htypes hvararg locals stack
      rcases hcall with hcall | ⟨f, hf, rfl, hruns, hreturn⟩
      · -- a function of another module is no method of the class
        obtain ⟨y, hstored, hmethod⟩ := houter hcall htypes hvararg locals stack
        refine ⟨y, hstored, fun e => (or_iff_left ?_).trans (hmethod e)⟩
        rintro ⟨m, hm, hcallee, -⟩
        rw [hexternal _ _ _ _ _ hcall] at hcallee
        cases hcallee
      · obtain ⟨⟨_, m⟩, hp, rfl⟩ := List.mem_map.mp hf
        obtain ⟨_, _, w, w', hw, hprint⟩ := M.printed _ hp
        have hcomputes := printFunction_computes math hldc (M.verified _ hp) hw hprint ih hruns []
        rw [List.append_nil] at hcomputes
        have hname := M.methodName_ref hp hvararg
        obtain ⟨y, hresult, hinvokes⟩ := hcomputes.invokes_iff (by
          rw [← hname, methodName, getCallSignature, hvararg, List.length_map,
            ← List.length_map LlvmVal.type, htypes]
          simp)
        refine ⟨y.map (narrow m.name.ret), ?_, fun e => ?_⟩
        · cases hresult with
          | none => exact .none
          | @some x y hstored =>
              have hret : m.name.ret = getTypeDescriptor x.type false := by
                rw [← hname, methodName, getCallSignature, ← hreturn]
                split <;> rfl
              rw [hret]
              exact .some hstored.narrow
        · rw [M.internal _ hp, ← hinvokes locals stack e, hname]
          constructor
          · rintro (hother | ⟨m', hm', hcallee, hinvokes'⟩)
            · exact (hapart m (List.mem_map_of_mem hp) _ _ hother).elim
            · obtain ⟨q, hq, rfl⟩ := List.mem_map.mp hm'
              injection hcallee with _ hmethod
              cases M.method_unique hp hq hmethod
              exact hinvokes'
          · exact fun hinvokes' => .inr ⟨m, List.mem_map_of_mem hp, rfl, hinvokes'⟩

/-- In every module the methods compute what the functions do, at every depth of calls. -/
theorem computes {p : FunctionDef × MethodText} (hp : p ∈ M.parts) {n k : ℕ} (hk : n ≤ k)
    {xs : List LlvmVal} {memory memory' : Memory} {x : Option LlvmVal}
    (hruns : LlvmRuns env (llvmCalls env M.functions outer n) p.1 (LlvmState.Exact env p.1) xs
      memory x memory') (rest : List Val) :
    p.2.Computes (methodEnv env math (methodCalls env math M.methods outerMethods k))
      (xs.map LlvmVal.represent ++ rest) memory x memory' := by
  obtain ⟨_, _, w, w', hw, hprint⟩ := M.printed p hp
  exact printFunction_computes math hldc (M.verified p hp) hw hprint
    (M.callsAgree hldc houter hapart hexternal k)
    (hruns.mono (llvmCalls_extends env M.functions outer hk)) rest

end calls

end TranslatedModule

/-! ## A recursive function -/

/-- `void f(i1)`. -/
def descendRef : FunctionRef := ⟨"f", ⟨[.int .w1], false, none⟩, false⟩

/-- The function calls itself with `false` if its argument is `true`. -/
def descendFunction : FunctionDef where
  ref := descendRef
  hasLocalLinkage := false
  args := [⟨0, .int .w1⟩]
  blocks := [⟨0, "", [], [⟨none, .br (.conditional 0 (.var ⟨0, .int .w1⟩) 1 2)⟩]⟩,
    ⟨1, "", [], [⟨none, .call (.const (.function descendRef)) descendRef.type
      [.const (.int .w1 0#1)]⟩, ⟨none, .br (.unconditional 1 2)⟩]⟩,
    ⟨2, "", [], [⟨none, .ret none⟩]⟩]
  loopInfo := .empty

theorem descendFunction_phis (b : ℕ) : descendFunction.branches.phis b = [] := by
  simp only [FunctionDef.branches]
  cases hb : descendFunction.block b with
  | none => rfl
  | some block =>
      have hmem := (FunctionDef.block_mem hb).1
      simp only [descendFunction, List.mem_cons, List.not_mem_nil, or_false] at hmem
      rcases hmem with rfl | rfl | rfl <;> rfl

theorem descendFunction_verified : descendFunction.Verified := by
  have hlocals : descendFunction.locals = [⟨0, .int .w1⟩] := rfl
  refine .of_blocks (.of_blocks (LoopInfo.wellFormed_empty _) (by simp [descendFunction])
    (by simp [descendFunction]) (by simp [hlocals]) (by simp [descendFunction]) ?_)
    (by simp [descendFunction]) (by simp [descendFunction]) fun u _ v hv => nomatch hv
  simp only [FunctionDef.accepts_iff, hlocals]
  simp [descendFunction, Operation.operands, BranchInst.condition, Operation.successors,
    BranchInst.successors, Operation.register, Operation.swapParameter, Value.In]

theorem edgeExact_descend (values : Values) (src s : ℕ) :
    EdgeExact .plain values src (descendFunction.edges.phis s) := by
  have hphis : descendFunction.edges.phis s = [] := descendFunction_phis s
  rw [hphis]
  exact ⟨fun p hp => (nomatch hp), .nil⟩

/-- The function calls itself once: two frames are opened and closed. -/
theorem exists_llvmRuns_descend : ∃ memory', LlvmRuns .plain
    (llvmCalls .plain [descendFunction] (fun _ _ _ _ _ => False) 1) descendFunction
    (LlvmState.Exact .plain descendFunction) [.int .w1 1#1] Memory.initial none memory' := by
  obtain ⟨hfirst, hrun⟩ := stackRun_framed
  have hsecond : Memory.createStackFrame Memory.initial.framed =
      .ok () Memory.initial.framed.framed :=
    Memory.createStackFrame_framed (by decide) (by unfold Memory.InPage; decide)
  have hrun' := hrun.createStackFrame hsecond (by decide)
  have hthird := hrun'.inv.chain.destroyStackFrame
  have hfourth := (hrun'.destroyStackFrame rfl hthird).inv.chain.destroyStackFrame
  have hret : ∀ values m, (LlvmState.mk 2 [⟨none, .ret none⟩] values m).Exact .plain
      descendFunction := by
    intro values m inst hinst
    cases hinst
    exact fun u hu => nomatch hu
  have hbranch : ∀ inst insts b values m, (∀ u ∈ inst.condition, u.Storable .plain) →
      (LlvmState.mk b (⟨none, .br inst⟩ :: insts) values m).Exact .plain descendFunction := by
    intro inst insts b values m hcond i hi
    cases hi
    exact ⟨hcond, fun s _ => edgeExact_descend values _ s⟩
  have hentry : ∀ x m, (LlvmState.mk 0 [⟨none, .br (.conditional 0 (.var ⟨0, .int .w1⟩) 1 2)⟩]
      (Values.ofArgs descendFunction.args [.int .w1 x]) m).Exact .plain descendFunction :=
    fun x m => hbranch _ _ _ _ _ fun u hu => by cases hu; trivial
  -- the inner call
  have hinner : LlvmRuns .plain (fun _ _ _ _ _ => False) descendFunction
      (LlvmState.Exact .plain descendFunction) [.int .w1 0#1] Memory.initial.framed none
      (Memory.initial.framed.framed.setRegisters Memory.initial.framed.registers) :=
    ⟨_, _, .intro rfl rfl hsecond, .single ⟨.branch rfl rfl rfl
      (List.mem_cons_of_mem _ (List.mem_cons_of_mem _ List.mem_cons_self)), hentry _ _⟩,
      hret _ _, .void rfl hthird⟩
  refine ⟨_, _, _, .intro rfl rfl hfirst, .head ⟨.branch rfl rfl rfl
    (List.mem_cons_of_mem _ List.mem_cons_self), hentry _ _⟩ (.head ⟨.call rfl rfl
    (.inr ⟨_, List.mem_cons_self, rfl, hinner, rfl⟩) .nothing, ?_⟩ (.single ⟨.branch rfl rfl rfl
      (List.mem_cons_of_mem _ (List.mem_cons_of_mem _ List.mem_cons_self)), ?_⟩)), hret _ _,
    .void rfl hfourth⟩
  · intro inst hinst
    cases hinst
    refine ⟨by decide, rfl, rfl, fun v hv => ?_⟩
    obtain rfl := List.mem_singleton.mp hv
    exact fun _ => rfl
  · exact hbranch _ _ _ _ _ fun u hu => nomatch hu

/-- The module of this function. -/
def descendModule (m : MethodText) (w' : Writer)
    (hprint : printFunction plainOpts false descendFunction 0 2 .start = some (m, w')) :
    TranslatedModule plainOpts where
  parts := [(descendFunction, m)]
  verified p hp := by
    obtain rfl := List.mem_singleton.mp hp
    exact descendFunction_verified
  internal p hp := by
    obtain rfl := List.mem_singleton.mp hp
    rfl
  params p hp := by
    obtain rfl := List.mem_singleton.mp hp
    rfl
  printed p hp := by
    obtain rfl := List.mem_singleton.mp hp
    exact ⟨0, 2, _, w', .start rfl rfl, hprint⟩
  names := List.nodup_singleton _

theorem computes_descend : ∃ (M : TranslatedModule plainOpts) (m : MethodText) (memory' : Memory),
    (descendFunction, m) ∈ M.parts ∧ ∀ k, m.Computes (methodEnv .plain (fun _ _ => 0#64)
      (methodCalls .plain (fun _ _ => 0#64) M.methods (fun _ _ _ => False) (k + 1)))
        [.int 1#32] Memory.initial none memory' := by
  have hprint : printFunction plainOpts false descendFunction 0 2 .start = some (_, _) := rfl
  obtain ⟨memory', hruns⟩ := exists_llvmRuns_descend
  refine ⟨descendModule _ _ hprint, _, memory', List.mem_cons_self, fun k => ?_⟩
  exact TranslatedModule.computes (descendModule _ _ hprint) rfl (fun h => h.elim)
    (fun _ _ _ _ h => h) (fun _ _ _ _ _ h => h.elim) List.mem_cons_self (Nat.le_add_left 1 k)
    hruns []

end Llxvm.Backend
