import Llxvm.Backend.InstLabels
import Llxvm.Backend.LoopOrder

/-!
# Labels of methods

The labels of a whole method.  Those of the blocks come once because the blocks do; the numbers in
the tests behind `catch_jump` are those of the calls of `setjmp` if these were the last to get local
variables.
-/

namespace Llxvm.Backend

open Llxvm.Jvm

theorem Phi.incoming_mem {p : Phi} {src : ℕ} {v : Value}
    (h : p.getIncomingValueForBlock src = some v) : (src, v) ∈ p.incoming := by
  obtain ⟨before, after, heq, -⟩ := List.lookup_eq_some_iff.mp h
  rw [heq]
  exact List.mem_append_right before List.mem_cons_self

namespace FunctionDef

variable (f : FunctionDef)

/-- What holds of the PHI nodes of each block holds of those of a number. -/
theorem forall_phis {P : List Phi → Prop} (hnil : P []) (h : ∀ b ∈ f.blocks, P b.phis) (id : ℕ) :
    P (f.branches.phis id) := by
  change P (((f.block id).map BasicBlock.phis).getD [])
  cases hb : f.block id with
  | none => exact hnil
  | some b => exact h b (List.mem_of_find?_eq_some hb)

/-- The values that have a local variable when the body is printed. -/
def locals : List Local :=
  f.args ++ f.blocks.flatMap fun b =>
    b.results ++ b.insts.filterMap fun inst => inst.op.swapParameter.map Prod.snd

def IsBlock (l : Label) : Prop := ∃ b ∈ f.blocks, l = .block b.id

/-- What LLVM promises of a function. -/
structure WellFormed : Prop where
  ids : (f.blocks.map BasicBlock.id).Nodup
  locals : ∀ u ∈ f.locals, ∀ v ∈ f.locals, u.id = v.id → u = v
  args : (f.args.map Local.id).Nodup
  operands : ∀ b ∈ f.blocks, ∀ inst ∈ b.insts, ∀ v ∈ inst.op.operands, v.In f.locals
  phis : ∀ b ∈ f.blocks, PhisIn f.locals b.phis
  successors : ∀ b ∈ f.blocks, ∀ inst ∈ b.insts, ∀ s ∈ inst.op.successors, f.IsBlock (.block s)
  loops : f.loopInfo.WellFormed (f.blocks.map BasicBlock.id)
  /-- The functions and addresses that are called or jumped to by their values are pointers. -/
  registers : ∀ b ∈ f.blocks, ∀ inst ∈ b.insts, ∀ v, inst.op.register = some v → v.ty = .pointer
  /-- A function that swaps bytes returns a value of the type of its parameter. -/
  swaps : ∀ b ∈ f.blocks, ∀ inst ∈ b.insts, ∀ p ∈ inst.op.swapParameter, p.1 = p.2.ty
  vaStart : ∀ b ∈ f.blocks, ∀ inst ∈ b.insts, ∀ list, inst.op = .intrinsic (.vaStart list) →
    f.ref.type.isVarArg = true

/-- What is asked of one instruction of the function. -/
@[mk_iff]
structure Accepts (inst : Inst) : Prop where
  operands : ∀ v ∈ inst.op.operands, v.In f.locals
  successors : ∀ s ∈ inst.op.successors, ∃ b ∈ f.blocks, b.id = s
  registers : ∀ v, inst.op.register = some v → v.ty = .pointer
  swaps : ∀ p ∈ inst.op.swapParameter, p.1 = p.2.ty
  vaStart : ∀ list, inst.op = .intrinsic (.vaStart list) → f.ref.type.isVarArg = true

variable {f} in
/-- What is asked of the blocks of a function, when its loops are in order. -/
theorem WellFormed.of_blocks (hloops : f.loopInfo.WellFormed (f.blocks.map BasicBlock.id))
    (hids : (f.blocks.map BasicBlock.id).Nodup) (hargs : (f.args.map Local.id).Nodup)
    (hlocals : ∀ u ∈ f.locals, ∀ v ∈ f.locals, u.id = v.id → u = v)
    (hphis : ∀ b ∈ f.blocks, ∀ p ∈ b.phis,
      p.result ∈ f.locals ∧ ∀ q ∈ p.incoming, q.2.In f.locals)
    (hinsts : ∀ b ∈ f.blocks, ∀ inst ∈ b.insts, f.Accepts inst) : f.WellFormed where
  ids := hids
  locals := hlocals
  args := hargs
  operands b hb inst hinst := (hinsts b hb inst hinst).operands
  phis b hb p hp := by
    obtain ⟨hresult, hincoming⟩ := hphis b hb p hp
    exact ⟨hresult, fun src v hv => hincoming _ (Phi.incoming_mem hv)⟩
  successors b hb inst hinst s hs := by
    obtain ⟨b', hb', rfl⟩ := (hinsts b hb inst hinst).successors s hs
    exact ⟨b', hb', rfl⟩
  loops := hloops
  registers b hb inst hinst := (hinsts b hb inst hinst).registers
  swaps b hb inst hinst := (hinsts b hb inst hinst).swaps
  vaStart b hb inst hinst := (hinsts b hb inst hinst).vaStart

/-- The values of the function, and the pointer to its variadic arguments, have their local
variables. -/
structure Ready (vaArgNum : ℕ) (w : Writer) : Prop extends Backend.Ready f.locals w where
  vaArg : f.ref.type.isVarArg = true → vaArgNum < w.usedRegisters

end FunctionDef

/-! ## Operations -/

section operations

variable {f : FunctionDef} {opts : GenerationOpts} {vaArgNum : ℕ}

theorem prints_switch {T : Label → Prop} {cases : List (ℤ × ℕ)} {defaultDest : ℕ}
    (h : ∀ b ∈ defaultDest :: cases.map Prod.snd, T (.block b)) (w : Writer) :
    PrintsOnly T w w (printSwitchInstruction cases defaultDest) := by
  have hcases : ∀ e ∈ cases.foldl (fun m c => OrderedMap.insert c.1 c.2 m) [], T (.block e.2) := by
    intro e he
    have hmem := (OrderedMap.mem_foldl_insert he).resolve_right List.not_mem_nil
    exact h e.2 (List.mem_cons_of_mem _ (List.mem_map_of_mem hmem))
  refine ⟨⟨.refl w, .inl rfl, ?_, by simp, ?_, ?_, ?_⟩, rfl, rfl⟩
  · simp [printSwitchInstruction, Line.labels]
  · simp [printSwitchInstruction, Line.labels]
  · intro l hl
    simp only [printSwitchInstruction, targets_cons, targets_nil, Line.targets, List.append_nil,
      List.mem_cons, List.map_map, List.mem_map] at hl
    rcases hl with rfl | ⟨e, he, rfl⟩
    · exact .inr (h defaultDest List.mem_cons_self)
    · exact .inr (hcases e he)
  · simp [printSwitchInstruction, Line.slotEnds]

theorem indirectCases_spec {names : List String} {w w' : Writer} {cases : List (ℤ × ℕ)}
    (hprint : indirectCases f names w = some (cases, w')) :
    w' = w ∧ ∀ b ∈ cases.map Prod.snd, f.IsBlock (.block b) := by
  induction names generalizing cases w' with
  | nil =>
      cases hprint
      exact ⟨rfl, by simp⟩
  | cons name names ih =>
      simp only [indirectCases, emit_bind, emit_get, Option.bind_some] at hprint
      cases hbsid : w.basicblockMap.lookup name with
      | none =>
          rw [hbsid] at hprint
          cases hprint
      | some bsid =>
          rw [hbsid] at hprint
          cases hblock : f.blockNamed name with
          | none =>
              rw [hblock] at hprint
              cases hprint
          | some b =>
              rw [hblock] at hprint
              obtain ⟨rest, w₁, hrest, h₁⟩ := emit_bind_eq_some hprint
              cases h₁
              obtain ⟨rfl, hblocks⟩ := ih hrest
              refine ⟨rfl, fun b' hb' => ?_⟩
              rcases List.mem_cons.mp hb' with rfl | hb'
              · exact ⟨b, List.mem_reverse.mp (List.mem_of_find?_eq_some hblock), rfl⟩
              · exact hblocks b' hb'

theorem firstNamed_mem {b : BasicBlock} (h : f.firstNamed = some b) : b ∈ f.blocks := by
  unfold FunctionDef.firstNamed at h
  split at h
  · cases h
  · exact List.mem_reverse.mp (List.mem_of_find?_eq_some h)

theorem printsOp_printIndirectBr {T : Label → Prop} (hblocks : ∀ l, f.IsBlock l → T l)
    {address : Local} {destinations : List String} {w w' : Writer} (hw : Ready f.locals w)
    {ls : List Line}
    (hprint : printIndirectBr opts f address destinations w = some (ls, w')) :
    PrintsOp T (.indirectBr address destinations) w w' ls := by
  obtain ⟨n, w₁, hn, h₁⟩ := emit_bind_eq_some hprint
  obtain ⟨cases, w₂, hcases, h₂⟩ := emit_bind_eq_some h₁
  obtain ⟨rfl, hhas⟩ := getLocalVarNumber_touch hn
  obtain ⟨rfl, hnamed⟩ := indirectCases_spec hcases
  clear hprint h₁
  cases hfirst : f.firstNamed with
  | none =>
      rw [hfirst] at h₂
      cases h₂
  | some first =>
      rw [hfirst] at h₂
      cases h₂
      have hswitch : PrintsOnly T (w.touch address) (w.touch address)
          (printSwitchInstruction cases first.id) := by
        refine prints_switch (fun b hb => hblocks _ ?_) _
        rcases List.mem_cons.mp hb with rfl | hb
        · exact ⟨first, firstNamed_mem hfirst, rfl⟩
        · exact hnamed b hb
      have hgiven := (hw.touch address).given address.id n hhas
      have hload : ∀ form, PrintsOnly T (w.touch address) (w.touch address)
          [.instr (.load .i form n)] := by
        intro form
        refine ⟨⟨.refl _, .inl rfl, ?_, by simp, ?_, ?_, ?_⟩, rfl, rfl⟩
        · simp [Line.labels]
        · simp [Line.labels]
        · simp [Line.targets]
        · simpa [Line.slotEnds, prefixRegisters] using Nat.succ_le_of_lt hgiven
      exact ((hload _).trans hswitch).toOp_touch rfl rfl

variable (hf : f.WellFormed)

include hf

theorem block_phis : ∀ id, PhisIn f.locals (f.branches.phis id) :=
  f.forall_phis (P := PhisIn f.locals) (by simp [PhisIn]) hf.phis

/-- An operation names labels of its own and the blocks that it goes to. -/
theorem printsOp_printOperation_of {T : Label → Prop} {b : BasicBlock} (hb : b ∈ f.blocks)
    {inst : Inst} (hinst : inst ∈ b.insts)
    (hsuccessors : ∀ s ∈ inst.op.successors, T (.block s))
    (hindirect : inst.op.isIndirectBr = true → ∀ l, f.IsBlock l → T l) {w w' : Writer}
    (hw : f.Ready vaArgNum w) {ls : List Line}
    (hprint : printOperation opts f vaArgNum inst.op w = some (ls, w')) :
    PrintsOp T inst.op w w' ls := by
  have hoperands := hf.operands b hb inst hinst
  have hregisters := hf.registers b hb inst hinst
  have hvaStart := hf.vaStart b hb inst hinst
  obtain ⟨result, op⟩ := inst
  simp only at hprint hoperands hsuccessors hindirect hregisters hvaStart ⊢
  -- all operations but calls and indirect branches only print
  have honly : ∀ {op : Operation}, Safe T f.locals id (printOperation opts f vaArgNum op) →
      op.register = none → op.isSetjmp = false →
      printOperation opts f vaArgNum op w = some (ls, w') → PrintsOp T op w w' ls :=
    fun hsafe hregister hsetjmp hprint => (hsafe hw.toReady hprint).toOp hregister hsetjmp
  cases op with
  | ret v =>
      refine honly ?_ rfl rfl hprint
      cases v with
      | none => exact safe_pure (by simp [Plain, Line.isPlain])
      | some v =>
          exact (safe_printValueLoad (hoperands v (by simp [Operation.operands]))).bind fun _ =>
            .ret_of_eq (by simp [Line.labels]) (by simp [Line.targets])
              (by simp [Line.slotEnds])
  | unreachable => exact honly (safe_pure (by simp [Plain, Line.isPlain])) rfl rfl hprint
  | arithmetic op left right =>
      exact honly (safe_lines (safe_binary
        (safe_printValueLoad (hoperands left (by simp [Operation.operands])))
        (safe_printValueLoad (hoperands right (by simp [Operation.operands])))
        (.of_isBinary (isBinary_arithmeticCode _ _ _)))) rfl rfl hprint
  | fneg v =>
      exact honly ((safe_printValueLoad (hoperands v (by simp [Operation.operands]))).bind fun _ =>
        .ret_of_eq (by simp [Line.labels]) (by simp [Line.targets]) (by simp [Line.slotEnds]))
          rfl rfl hprint
  | cast op v ty =>
      exact honly (safe_lines (safe_printCastInstruction op
        (hoperands v (by simp [Operation.operands])) ty v.type)) rfl rfl hprint
  | cmp pred left right =>
      exact honly (safe_lines (safe_binary
        (safe_printValueLoad (hoperands left (by simp [Operation.operands])))
        (safe_printValueLoad (hoperands right (by simp [Operation.operands])))
        (.of_isBinary (isBinary_cmpCode _ _)))) rfl rfl hprint
  | br inst =>
      refine honly (safe_lines (safe_printBranchInstruction (block_phis hf) ?_ hsuccessors)) rfl rfl
        hprint
      cases inst with
      | unconditional src dest => trivial
      | conditional src cond t e =>
          exact hoperands cond (by simp [Operation.operands, BranchInst.condition])
  | select cond trueVal falseVal =>
      exact honly (safe_lines (safe_printSelectInstruction
        (hoperands cond (by simp [Operation.operands]))
        (hoperands trueVal (by simp [Operation.operands]))
        (hoperands falseVal (by simp [Operation.operands])))) rfl rfl hprint
  | load address ty =>
      exact honly (safe_lines (safe_printIndirectLoad
        (hoperands address (by simp [Operation.operands])) ty)) rfl rfl hprint
  | store address val =>
      exact honly (safe_lines (safe_binary
        (safe_printValueLoad (hoperands address (by simp [Operation.operands])))
        (safe_printValueLoad (hoperands val (by simp [Operation.operands])))
        (by simp [Plain, Line.isPlain]))) rfl rfl hprint
  | getElementPtr v indices =>
      refine honly (safe_lines (safe_printGepInstruction
        (hoperands v (by simp [Operation.operands])) fun i hi => hoperands i.2 ?_)) rfl rfl hprint
      exact List.mem_cons_of_mem v (List.mem_map_of_mem hi)
  | call functionVal ty args =>
      refine printsOp_printCall (fun v hv => ?_) hoperands hw.toReady hprint
      rw [hregisters v (by rw [hv]; rfl)]
      rfl
  | intrinsic inst =>
      by_cases hstart : ∃ list, inst = .vaStart list
      · obtain ⟨list, rfl⟩ := hstart
        exact (printVaStart_prints (hoperands list (by simp [Operation.operands,
          IntrinsicInst.operands])) hw.toReady (hw.vaArg (hvaStart list rfl)) hprint).toOp rfl rfl
      · exact honly (safe_printIntrinsicCall vaArgNum hoperands fun list heq =>
          hstart ⟨list, heq⟩) rfl rfl hprint
  | switch cases defaultDest =>
      cases hprint
      exact (prints_switch hsuccessors w).toOp rfl rfl
  | alloca ty arraySize =>
      exact honly (safe_lines (safe_printAllocaInstruction ty
        (hoperands arraySize (by simp [Operation.operands])))) rfl rfl hprint
  | vaArg list ty =>
      exact honly (safe_lines (safe_printVAArgInstruction
        (hoperands list (by simp [Operation.operands])) ty)) rfl rfl hprint
  | indirectBr address destinations =>
      exact printsOp_printIndirectBr (hindirect rfl) hw.toReady hprint
  | invoke => cases hprint

theorem printsOp_printOperation {b : BasicBlock} (hb : b ∈ f.blocks) {inst : Inst}
    (hinst : inst ∈ b.insts) {w w' : Writer} (hw : f.Ready vaArgNum w) {ls : List Line}
    (hprint : printOperation opts f vaArgNum inst.op w = some (ls, w')) :
    PrintsOp f.IsBlock inst.op w w' ls :=
  printsOp_printOperation_of hf hb hinst (hf.successors b hb inst hinst) (fun _ _ h => h) hw hprint

end operations

/-! ## Instructions in sequence -/

/-- The local variables that the calls of `setjmp` take. -/
def jumps : Writer → List Operation → List ℕ
  | _, [] => []
  | w, op :: ops => (if op.isSetjmp then [w.usedRegisters] else []) ++ jumps (w.after op) ops

/-- The two states have the same local variables. -/
def SameLocals (w w' : Writer) : Prop :=
  w'.localVars = w.localVars ∧ w'.usedRegisters = w.usedRegisters

section locals

variable {w w' w₁ : Writer}

theorem SameLocals.after (h : SameLocals w w') (op : Operation) :
    SameLocals (w.after op) (w'.after op) := by
  obtain ⟨hvars, hused⟩ := h
  unfold Writer.after Writer.touch
  split
  · rw [hvars]
    split
    · exact ⟨hvars, hused⟩
    · exact ⟨by simp [hused], by simp [hused]⟩
  · split_ifs
    · exact ⟨hvars, by simp [hused]⟩
    · exact ⟨hvars, hused⟩

theorem SameLocals.foldl_after (h : SameLocals w w') (ops : List Operation) :
    SameLocals (ops.foldl Writer.after w) (ops.foldl Writer.after w') := by
  induction ops generalizing w w' with
  | nil => exact h
  | cons op ops ih => exact ih (h.after op)

theorem SameLocals.jumps (h : SameLocals w w') (ops : List Operation) :
    jumps w' ops = jumps w ops := by
  induction ops generalizing w w' with
  | nil => rfl
  | cons op ops ih => rw [Backend.jumps, Backend.jumps, ih (h.after op), h.2]

theorem jumps_append (w : Writer) (ops ops' : List Operation) :
    jumps w (ops ++ ops') = jumps w ops ++ jumps (ops.foldl Writer.after w) ops' := by
  induction ops generalizing w with
  | nil => rfl
  | cons op ops ih =>
      rw [List.cons_append, jumps, jumps, ih, List.append_assoc]
      rfl

theorem Writer.Has.foldl_after {w : Writer} {u : Local} {n : ℕ} (h : w.Has u n)
    (ops : List Operation) : (ops.foldl Writer.after w).Has u n := by
  induction ops generalizing w with
  | nil => exact h
  | cons op ops ih =>
      refine ih ?_
      unfold Writer.after
      split
      · exact h.touch _
      · split_ifs <;> exact h

end locals

/-- The lines of operations one after the other, with what is printed around them. -/
structure PrintsOps (T : Label → Prop) (kept : List Label) (ops : List Operation) (w w' : Writer)
    (ls : List Line) : Prop extends Prints T kept w w' ls where
  locals : SameLocals (ops.foldl Writer.after w) w'
  setjmp : ∀ n, .setjmp n ∈ labels ls ↔ n ∈ jumps w ops

section sequence

variable {T : Label → Prop} {kept kept' : List Label} {ops ops' : List Operation}
  {w w₁ w₂ : Writer} {ls js : List Line} {vars : List Local}

theorem PrintsOp.toOps {op : Operation} (h : PrintsOp T op w w₁ ls) :
    PrintsOps T [] [op] w w₁ ls :=
  ⟨h.toPrints, ⟨h.localVars, h.usedRegisters⟩, fun n => by
    rw [h.setjmp n]
    cases hop : op.isSetjmp <;> simp [jumps, hop]⟩

theorem PrintsOnly.toOps (h : PrintsOnly T w w₁ ls) : PrintsOps T [] [] w w₁ ls := by
  refine ⟨h.toPrints, ⟨h.localVars, h.usedRegisters⟩, fun n => iff_of_false (fun hl => ?_) ?_⟩
  · rcases h.new _ hl with hnew | hkept
    · have hused := h.usedRegisters
      simp only [NewLabel] at hnew
      omega
    · cases hkept
  · exact List.not_mem_nil

theorem PrintsOps.trans (h₁ : PrintsOps T kept ops w w₁ ls)
    (h₂ : PrintsOps T kept' ops' w₁ w₂ js) (hold : ∀ l ∈ kept', OldLabel w l)
    (hdisj : ∀ l ∈ kept', l ∉ kept) :
    PrintsOps T (kept ++ kept') (ops ++ ops') w w₂ (ls ++ js) := by
  have hsame := h₁.locals.foldl_after ops'
  refine ⟨h₁.toPrints.trans h₂.toPrints hold hdisj, ?_, fun n => ?_⟩
  · rw [List.foldl_append]
    exact ⟨h₂.locals.1.trans hsame.1, h₂.locals.2.trans hsame.2⟩
  · rw [labels_append, List.mem_append, h₁.setjmp, h₂.setjmp, jumps_append, List.mem_append,
      h₁.locals.jumps]

theorem PrintsOps.append (h₁ : PrintsOps T kept ops w w₁ ls)
    (h₂ : PrintsOps T [] ops' w₁ w₂ js) : PrintsOps T kept (ops ++ ops') w w₂ (ls ++ js) := by
  have h := h₁.trans h₂ (by simp) (by simp)
  rwa [List.append_nil] at h

theorem Ready.foldl_after (h : Ready vars w) (ops : List Operation) :
    Ready vars (ops.foldl Writer.after w) := by
  induction ops generalizing w with
  | nil => exact h
  | cons op ops ih =>
      refine ih ?_
      unfold Writer.after
      split
      · exact h.touch _
      · split_ifs
        · exact h.later ⟨le_rfl, le_rfl, Nat.le_succ _⟩ rfl rfl
        · exact h

theorem PrintsOps.has (h : PrintsOps T kept ops w w₁ ls) {v : Local} {n : ℕ} (hv : w.Has v n) :
    w₁.Has v n := by
  rw [Writer.Has, h.locals.1]
  exact hv.foldl_after ops

theorem Ready.afterOps (h : Ready vars w) (hprints : PrintsOps T kept ops w w₁ ls) :
    Ready vars w₁ := by
  obtain ⟨hvars, hused⟩ := hprints.locals
  have hafter := h.foldl_after ops
  refine ⟨fun l hl => ?_, fun v hv => hvars ▸ hafter.has v hv, fun id n hn => ?_,
    fun v hv n hn => ?_⟩
  · rcases hprints.last with hlast | ⟨l', hlast, hmem⟩
    · exact (h.last l (hlast ▸ hl)).mono hprints.toLater
    · cases hlast.symm.trans hl
      exact hprints.old_right hmem
  · rw [hused]
    exact hafter.given id n (hvars ▸ hn)
  · rw [hused]
    exact hafter.room v hv n (hvars ▸ hn)

theorem FunctionDef.Ready.afterOps {f : FunctionDef} {vaArgNum : ℕ} (h : f.Ready vaArgNum w)
    (hprints : PrintsOps T kept ops w w₁ ls) : f.Ready vaArgNum w₁ :=
  ⟨h.toReady.afterOps hprints, fun hva => (h.vaArg hva).trans_le hprints.usedRegisters_le⟩

end sequence

/-- The lines of the calls of `setjmp`. -/
def setjmpCalls (code : List (Inst × List Line)) : List (List Line) :=
  (code.filter fun p => p.1.op.isSetjmp).map Prod.snd

/-- The lines that come with an instruction are printed for it, where the values that have local
variables in the state `w` have these. -/
def MadeBy (opts : GenerationOpts) (f : FunctionDef) (vaArgNum : ℕ) (w : Writer)
    (p : Inst × List Line) : Prop :=
  ∃ w₁ w₂, f.Ready vaArgNum w₁ ∧ (∀ v n, w.Has v n → w₁.Has v n) ∧
    printInst opts f vaArgNum p.1 w₁ = some (p.2, w₂)

theorem MadeBy.mono {opts : GenerationOpts} {f : FunctionDef} {vaArgNum : ℕ} {w w' : Writer}
    {p : Inst × List Line} (h : MadeBy opts f vaArgNum w' p) 
    (hhas : ∀ v n, w.Has v n → w'.Has v n) :
    MadeBy opts f vaArgNum w p := by
  obtain ⟨w₁, w₂, hready, hw₁, hprint⟩ := h
  exact ⟨w₁, w₂, hready, fun v n hv => hw₁ v n (hhas v n hv), hprint⟩

section insts

variable {f : FunctionDef} {opts : GenerationOpts} {vaArgNum : ℕ}

theorem result_mem {b : BasicBlock} (hb : b ∈ f.blocks) {inst : Inst} (hinst : inst ∈ b.insts)
    {v : Local} (hv : inst.result = some v) : v ∈ f.locals := by
  refine List.mem_append_right _ (List.mem_flatMap.mpr ⟨b, hb, List.mem_append_left _ ?_⟩)
  exact List.mem_append_right _ (List.mem_filterMap.mpr ⟨inst, hinst, hv⟩)

variable (hf : f.WellFormed)

include hf

theorem printInst_prints {b : BasicBlock} (hb : b ∈ f.blocks) {inst : Inst}
    (hinst : inst ∈ b.insts) {w w' : Writer} (hw : f.Ready vaArgNum w) {ls : List Line}
    (hprint : printInst opts f vaArgNum inst w = some (ls, w')) :
    PrintsOps f.IsBlock [] [inst.op] w w' ls ∧
      (inst.op.isSetjmp = true → StoresJump ls w.usedRegisters) := by
  obtain ⟨code, w₁, hcode, h₁⟩ := emit_bind_eq_some hprint
  obtain ⟨store, w₂, hstore, h₂⟩ := emit_bind_eq_some h₁
  cases h₂
  have hcode' := printsOp_printOperation hf hb hinst hw hcode
  have hop := hcode'.toOps
  have hresult : Safe f.IsBlock f.locals lines (printResult opts inst.result) := by
    cases hv : inst.result with
    | none => exact safe_pure (by simp [Plain])
    | some v => exact safe_printValueStore (result_mem hb hinst hv)
  exact ⟨hop.append (hresult (hw.afterOps hop).toReady hstore).toOps,
    fun hset => (hcode'.stores hset).append _⟩

theorem printInsts_prints {b : BasicBlock} (hb : b ∈ f.blocks) {insts : List Inst}
    (hinsts : ∀ inst ∈ insts, inst ∈ b.insts) {w w' : Writer} (hw : f.Ready vaArgNum w)
    {code : List (Inst × List Line)}
    (hprint : printInsts opts f vaArgNum insts w = some (code, w')) :
    code.map Prod.fst = insts ∧
      PrintsOps f.IsBlock [] (insts.map Inst.op) w w' (code.flatMap Prod.snd) ∧
      List.Forall₂ StoresJump (setjmpCalls code) (jumps w (insts.map Inst.op)) ∧
      ∀ p ∈ code, MadeBy opts f vaArgNum w p := by
  induction insts generalizing w code with
  | nil =>
      cases hprint
      exact ⟨rfl, (PrintsOnly.plain (by simp [Plain])).toOps, .nil, by simp⟩
  | cons inst insts ih =>
      obtain ⟨first, w₁, hfirst, h₁⟩ := emit_bind_eq_some hprint
      obtain ⟨rest, w₂, hrest, h₂⟩ := emit_bind_eq_some h₁
      cases h₂
      obtain ⟨hop, hstores⟩ := printInst_prints hf hb (hinsts inst List.mem_cons_self) hw hfirst
      obtain ⟨heq, hops, hcalls, hmade⟩ := ih
        (fun i hi => hinsts i (List.mem_cons_of_mem inst hi)) (hw.afterOps hop) hrest
      rw [hop.locals.jumps] at hcalls
      refine ⟨by rw [List.map_cons, heq], hop.append hops, ?_, fun p hp => ?_⟩
      · rw [List.map_cons, jumps, setjmpCalls, List.filter_cons]
        cases hset : inst.op.isSetjmp with
        | true => exact .cons (hstores hset) hcalls
        | false => exact hcalls
      · rcases List.mem_cons.mp hp with rfl | hp
        · exact ⟨w, w₁, hw, fun _ _ hv => hv, hfirst⟩
        · exact (hmade p hp).mono fun v n hv => hop.has hv

end insts

end Llxvm.Backend
