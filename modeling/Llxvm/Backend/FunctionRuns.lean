import Llxvm.Backend.PrologueRuns

/-!
# Methods compute functions

A run of a function that the writer translates exactly, step by step, is a run of its method: from
the arguments in the first local variables to the result, with the same memory.  The method has no
other result.
-/

namespace Llxvm.Backend

open Llxvm.Jvm Llxvm.Runtime LabelledCode

/-- A function that LLVM accepts: incoming values have the types of their PHI nodes, and no
instruction defines an argument. -/
structure FunctionDef.Verified (f : FunctionDef) : Prop extends f.WellFormed where
  results : ∀ b, ((f.branches.phis b).map (·.result.id)).Nodup
  incoming : ∀ b, ∀ p ∈ f.branches.phis b, ∀ src v, p.getIncomingValueForBlock src = some v →
    v.type = p.result.ty
  fresh : ∀ u ∈ f.args, ∀ v ∈ f.variables, u.id ≠ v.id

theorem FunctionDef.Verified.edges {f : FunctionDef} (hf : f.Verified) : f.edges.WellFormed where
  ids := hf.locals
  result_mem b p hp := (block_phis hf.toWellFormed b p hp).1
  results := hf.results
  incoming b p hp src v hv :=
    ⟨(block_phis hf.toWellFormed b p hp).2 src v hv, hf.incoming b p hp src v hv⟩

theorem FunctionDef.Verified.of_blocks {f : FunctionDef} (hf : f.WellFormed)
    (hresults : ∀ b ∈ f.blocks, (b.phis.map (·.result.id)).Nodup)
    (hincoming : ∀ b ∈ f.blocks, ∀ p ∈ b.phis, ∀ q ∈ p.incoming, q.2.type = p.result.ty)
    (hfresh : ∀ u ∈ f.args, ∀ v ∈ f.variables, u.id ≠ v.id) : f.Verified where
  toWellFormed := hf
  results := f.forall_phis (P := fun phis => (phis.map (·.result.id)).Nodup) .nil hresults
  incoming := by
    refine f.forall_phis (P := fun phis => ∀ p ∈ phis, ∀ src v,
      p.getIncomingValueForBlock src = some v → v.type = p.result.ty) (by simp) ?_
    exact fun b hb p hp src v hv => hincoming b hb p hp _ (Phi.incoming_mem hv)
  fresh := hfresh

/-- The result of a method becomes that of a function when it is stored. -/
def ResultFrom (x : Option LlvmVal) (y : Option Val) : Prop := Option.Rel LlvmVal.StoredFrom x y

/-- The method has one result for the arguments: `x`, and the memory `m'`. -/
def MethodText.Computes (env : LineEnv MethodResult) (m : MethodText) (arguments : List Val)
    (memory : Memory) (x : Option LlvmVal) (memory' : Memory) : Prop :=
  ∃ y, ResultFrom x y ∧
    (∃ tr, (methodMachine env).Finishes m.lines none ⟨parameterLocals 0 arguments, [], memory⟩ tr
      (.inl (y, memory'))) ∧
    ∀ tr r, (methodMachine env).Finishes m.lines none ⟨parameterLocals 0 arguments, [], memory⟩ tr
      r → r = .inl (y, memory')

section function

variable {env : Env} {math : MathFunction → List (BitVec 64) → BitVec 64} {call : MethodCalls}
  {calls : Calls} {opts : GenerationOpts} {f : FunctionDef} {curBasicblockMapId maxOperands : ℕ}
  {w w' : Writer} {m : MethodText}

variable (math) in
/-- The method of a function computes what the function does. -/
theorem printFunction_computes (hldc : opts.wideLdc = false) (hf : f.Verified)
    (hw : w.Reachable opts)
    (hprint : printFunction opts false f curBasicblockMapId maxOperands w = some (m, w'))
    (hcalls : CallsAgree calls call)
    {xs : List LlvmVal} {memory memory' : Memory} {x : Option LlvmVal}
    (hruns : LlvmRuns env calls f (LlvmState.Exact env f) xs memory x memory') (rest : List Val) :
    m.Computes (methodEnv env math call) (xs.map LlvmVal.represent ++ rest) memory x memory' := by
  obtain ⟨s, s', henters, hsteps, hexact, hreturns⟩ := hruns
  have hwell := hf.toWellFormed
  have hlast := hw.ready.2
  obtain ⟨vaArgNum, w₁, htexts⟩ := printFunction_blockTexts hwell hlast hprint
  obtain ⟨_, _, _, hparts, -⟩ := printFunction_parts hwell hlast hprint
  have hnodup : ((methodMachine (methodEnv env math call)).labels m.lines).Nodup := by
    rw [labels_methodMachine]
    exact hparts.nodup
  cases henters with
  | @intro m₁ block blocks hblocks htypes hframe =>
      obtain ⟨code, locals, hprologue, hrun, held⟩ :=
        htexts.run_prologue hwell hf.fresh htypes rest hframe
      have hmem : block ∈ f.blocks := hblocks ▸ List.mem_cons_self
      obtain ⟨post, hentry⟩ := htexts.exists_entryText hwell hblocks
      obtain ⟨pre, after, insts, htext, hinsts, hmade⟩ := htexts.exists_blockText hwell hmem
      -- the label in front of the body is the only one of the entry block
      have hat : (methodMachine (methodEnv env math call)).At m.lines (.block block.id)
          (.instr (.label (.block block.id)) :: (insts.flatMap Prod.snd ++ after)) :=
        Machine.at_of_eq htext rfl
      have hpost : post = insts.flatMap Prod.snd ++ after := by
        have hat' := Machine.at_of_eq (M := methodMachine (methodEnv env math call))
          (l := .block block.id) hentry rfl
        exact (List.cons.inj (hat'.unique hnodup hat)).2
      rw [hprologue] at hentry
      have hstart : (methodMachine (methodEnv env math call)).Runs m.lines
          (m.lines, ⟨parameterLocals 0 (xs.map LlvmVal.represent ++ rest), [], memory⟩)
          (post, ⟨locals, [], m₁⟩) := by
        have hsuffix : lines code ++ .instr (.label (.block block.id)) :: post <:+ m.lines := by
          rw [← hentry]
        have hbody := runs_of_fall (methodEnv env math call) hrun hsuffix
        rw [← hentry] at hbody
        exact hbody.trans (.next (does_next rfl) _)
      have hfollows : Follows opts f vaArgNum { w₁ with lastLabel := some .beginMethod } m.lines
          ⟨block.id, block.insts, Values.ofArgs f.args xs, m₁⟩ (post, ⟨locals, [], m₁⟩) := by
        refine ⟨?_, ⟨insts, after, hpost, hinsts, hmade⟩,
          ⟨block, hmem, rfl, List.Subset.refl _⟩, rfl, rfl, held.congr fun _ _ _ h => h⟩
        rw [hpost]
        exact (List.suffix_cons _ _).trans hat.1
      obtain ⟨p, hruns, hfollows'⟩ := hfollows.steps math hwell hf.edges hldc hcalls
        (fun b hb => htexts.exists_blockText hwell hb) hsteps
      obtain ⟨y, line, tail, c, hresult, hruns', hleave⟩ :=
        hfollows'.returns math call hwell hldc hreturns hexact
      have hall := (hstart.trans hruns).trans hruns'
      have hbegin : (methodMachine (methodEnv env math call)).Start m.lines none m.lines := rfl
      exact ⟨y, hresult, hall.finishes hleave hbegin, fun tr r hr =>
        hall.finishes_unique hleave hnodup hr hbegin⟩

end function

/-! ## A function with a branch -/

theorem choiceFunction_verified : choiceFunction.Verified :=
  .of_blocks choiceFunction_wellFormed (by simp [choiceFunction])
    (by simp [choiceFunction, Value.type, Constant.type]) (by decide)

/-- The first frame. -/
theorem stackRun_framed :
    Memory.createStackFrame Memory.initial = .ok () Memory.initial.framed ∧
      Memory.StackRun Memory.initial.framed ⟨[], [⟨Memory.initial.registers, []⟩]⟩ := by
  have hcreate : Memory.createStackFrame Memory.initial = .ok () Memory.initial.framed :=
    Memory.createStackFrame_framed (by decide) (by unfold Memory.InPage; decide)
  exact ⟨hcreate, .createStackFrame .initial hcreate (by decide)⟩

theorem printFunction_computes_choice : ∃ m w' memory',
    printFunction plainOpts false choiceFunction 0 2 .start = some (m, w') ∧
    m.Computes (methodEnv .plain (fun _ _ => 0#64) fun _ _ _ => False) [.int 1#32] Memory.initial
      none memory' := by
  obtain ⟨hcreate, hframe⟩ := stackRun_framed
  have hdestroy := hframe.inv.chain.destroyStackFrame
  have hprint : printFunction plainOpts false choiceFunction 0 2 .start = some (_, _) := rfl
  have hruns : LlvmRuns .plain (fun _ _ _ _ _ => False) choiceFunction
      (LlvmState.Exact .plain choiceFunction) [.int .w1 1#1] Memory.initial none
      (Memory.initial.framed.setRegisters Memory.initial.registers) := by
    refine ⟨_, _, .intro rfl rfl hcreate, .single ⟨.branch rfl rfl rfl
      (List.mem_cons_of_mem _ List.mem_cons_self), ?_⟩, ?_, .void rfl hdestroy⟩
    · intro inst hinst
      cases hinst
      refine ⟨fun u hu => ?_, fun s hs => ?_⟩
      · cases hu
        trivial
      · cases hs
        refine ⟨fun p hp k hk => ?_, List.pairwise_singleton _ _⟩
        obtain rfl := List.mem_singleton.mp hp
        cases hk
        exact ⟨trivial, rfl⟩
    · intro inst hinst
      cases hinst
      exact fun u hu => nomatch hu
  exact ⟨_, _, _, hprint, printFunction_computes _ rfl choiceFunction_verified (.start rfl rfl)
    hprint (fun h => h.elim) hruns []⟩

end Llxvm.Backend
