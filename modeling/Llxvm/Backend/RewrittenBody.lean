import Llxvm.Backend.Rewriting

/-!
# Methods with rewritten branches

Every instruction, every basic block and the whole method, without and with `jvm_rewrite_branches`.
-/

namespace Llxvm.Backend

open Llxvm.Jvm

/-! ## Branches -/

section branches

variable {opts : GenerationOpts} {f : Function}

theorem related_printPHICopies (src : ℕ) (phis : List Phi) :
    Related RewrittenCode (printPHICopies opts src phis)
      (printPHICopies opts.rewriting src phis) := by
  induction phis with
  | nil => exact .pure .nil
  | cons p phis ih =>
      unfold printPHICopies
      cases p.getIncomingValueForBlock src with
      | none => exact .unreachable
      | some v =>
          simp only
          split_ifs
          · exact ih
          · exact (related_printValueLoad v).bind fun load load' hload =>
              (related_printValueStore p.result).bind fun store store' hstore =>
                ih.bind fun rest rest' hrest => .pure ((hload.append hstore).append hrest)

theorem related_printPHICopy (src dest : ℕ) :
    Related RewrittenCode (printPHICopy opts f src dest)
      (printPHICopy opts.rewriting f src dest) := related_printPHICopies src (f.phis dest)

theorem related_printFalseCopies (src dest : ℕ) :
    Related RewrittenCode (printFalseCopies opts f src dest)
      (printFalseCopies opts.rewriting f src dest) := by
  rw [printFalseCopies_eq, printFalseCopies_eq]
  exact related_printPHICopy src dest

theorem related_printBranch (src dest : ℕ) :
    Related RewrittenCode (printBranch opts f src dest) (printBranch opts.rewriting f src dest) :=
  (related_printPHICopy src dest).bind fun _ _ h => .pure (h.append (.goto rfl))

theorem related_trueLabel (b : ℕ) : Related (fun l l' => l = l' ∧ isBr l = false)
    (trueLabel f b) (trueLabel f b) := by
  unfold trueLabel
  split_ifs
  · exact .pure ⟨rfl, rfl⟩
  · exact related_getUID.bind_eq fun uid => .pure ⟨rfl, rfl⟩

variable (hopts : opts.rewriteBranches = false)

include hopts

/-- The opposite test goes over a jump. -/
theorem related_printIfne {target : Label} (h : isBr target = false) :
    Related RewrittenCode (printIfne opts target) (printIfne opts.rewriting target) := by
  have hleft : printIfne opts target = pure [.ifne target] := by simp [printIfne, hopts]
  have hright : printIfne opts.rewriting target = rewriteBranch target := rfl
  rw [hleft, hright]
  rintro w _ ⟨n, rfl⟩
  exact .some ⟨Rewritten.ifne h .nil, n + 1, rfl⟩

theorem related_printBranchIf (src t : ℕ) (e : Option ℕ) :
    Related RewrittenCode (printBranchIf opts f src t e)
      (printBranchIf opts.rewriting f src t e) := by
  cases e with
  | none =>
      exact (related_printPHICopy src t).bind fun copies copies' hcopies =>
        (related_printIfne hopts rfl).bind fun br br' hbr => .pure (hcopies.append hbr)
  | some e =>
      unfold printBranchIf
      simp only
      split_ifs with hte hnil
      · exact (related_printBranch src t).bind fun br br' hbr => .pure (.keep rfl hbr)
      · refine (related_trueLabel t).bind fun l l' hl => ?_
        obtain ⟨rfl, hbr⟩ := hl
        exact (related_printIfne hopts hbr).bind fun br br' hbr =>
          (related_printFalseCopies src e).bind fun copies copies' hcopies =>
            .pure ((hbr.append hcopies).append (.goto rfl))
      · refine (related_trueLabel t).bind fun l l' hl => ?_
        obtain ⟨rfl, hbr⟩ := hl
        exact (related_printIfne hopts hbr).bind fun br br' hbr' =>
          (related_printFalseCopies src e).bind fun copies copies' hcopies =>
            (related_printLabel hbr).bind fun label label' hlabel =>
              (related_printPHICopy src t).bind fun trueCopies trueCopies' htrue =>
                .pure (((((hbr'.append hcopies).append (.goto rfl)).append hlabel).append
                  htrue).append (.goto rfl))

theorem related_printBranchInstruction (inst : BranchInst) :
    Related RewrittenCode (printBranchInstruction opts f inst)
      (printBranchInstruction opts.rewriting f inst) := by
  cases inst with
  | unconditional src dest => exact related_printBranch src dest
  | conditional src cond t e =>
      exact (related_printValueLoad cond).bind fun load load' hload =>
        (related_printBranchIf hopts src t (some e)).bind fun br br' hbr => .pure (hload.append hbr)

end branches

/-! ## Operations -/

section operations

variable {opts : GenerationOpts}

theorem related_lines {x x' : Emit Code} (hx : Related RewrittenCode x x') :
    Related Rewritten (do return lines (← x)) (do return lines (← x')) :=
  hx.bind fun _ _ h => .pure h

theorem related_printArguments (args : List Value) :
    Related RewrittenCode (printArguments opts args) (printArguments opts.rewriting args) := by
  induction args with
  | nil => exact .pure .nil
  | cons v args ih =>
      exact (related_printValueLoad v).bind fun load load' hload =>
        ih.bind fun rest rest' hrest => .pure (hload.append hrest)

theorem related_printPackCalls (args : List Value) :
    Related RewrittenCode (printPackCalls opts args) (printPackCalls opts.rewriting args) := by
  induction args with
  | nil => exact .pure .nil
  | cons v args ih =>
      exact (related_printValueLoad v).bind fun load load' hload =>
        ih.bind fun rest rest' hrest =>
          .pure ((hload.append_plain (by simp [Plain, Line.isPlain])).append hrest)

theorem related_printOperandPack (args : List Value) :
    Related RewrittenCode (printOperandPack opts args) (printOperandPack opts.rewriting args) := by
  refine (related_printPackCalls args).bind fun calls calls' hcalls => .pure ?_
  have hfirst : RewrittenCode
      [if operandSize args < 256 then .bipush (operandSize args) else .sipush (operandSize args),
        .invokestatic .allocateStack, .dup]
      [if operandSize args < 256 then .bipush (operandSize args) else .sipush (operandSize args),
        .invokestatic .allocateStack, .dup] :=
    .of_plain (by split_ifs <;> simp [Plain, Line.isPlain])
  exact (hfirst.append hcalls).append_plain (by simp [Plain, Line.isPlain])

theorem related_printVariadic (ty : FunctionType) (args : List Value) :
    Related RewrittenCode (printVariadic opts ty args) (printVariadic opts.rewriting ty args) := by
  unfold printVariadic
  split_ifs
  · exact related_printOperandPack _
  · exact .pure .nil

/-- The same method is called on related operands. -/
theorem related_printFunctionCall (functionVal : Value) (ty : FunctionType) (args : List Value) :
    Related (fun call call' => RewrittenCode call.operands call'.operands ∧
        call.callee = call'.callee)
      (printFunctionCall opts functionVal ty args)
      (printFunctionCall opts.rewriting functionVal ty args) := by
  unfold printFunctionCall
  split
  · exact (related_printArguments _).bind fun fixed fixed' hfixed =>
      (related_printVariadic _ args).bind fun packed packed' hpacked =>
        .pure ⟨hfixed.append hpacked, rfl⟩
  · exact (related_printValueLoad _).bind fun load load' hload =>
      (related_printOperandPack args).bind fun packed packed' hpacked =>
        .pure ⟨hload.append hpacked, rfl⟩

theorem related_printSetjmp (isSetjmp : Bool) :
    Related RewrittenCode (printSetjmp isSetjmp) (printSetjmp isSetjmp) := by
  unfold printSetjmp
  split_ifs
  · refine related_get.bind fun w _ hw => ?_
    obtain ⟨n, rfl⟩ := hw
    exact (related_set ⟨n, rfl⟩).bind_eq fun _ =>
      (related_printLabel rfl).bind fun label label' hlabel =>
        .pure (.keep rfl (.keep rfl hlabel))
  · exact .pure .nil

theorem related_printCall (functionVal : Value) (ty : FunctionType) (args : List Value) :
    Related Rewritten (printCall opts functionVal ty args)
      (printCall opts.rewriting functionVal ty args) := by
  refine (related_printFunctionCall functionVal ty args).bind fun call call' hcall =>
    (related_printSetjmp _).bind fun after after' hafter => .pure ?_
  rw [hcall.2]
  exact (Rewritten.append hcall.1 (.keep rfl .nil)).append hafter

theorem related_printIndirectLoad (address : Value) (ty : Ty) :
    Related RewrittenCode (printIndirectLoad opts address ty)
      (printIndirectLoad opts.rewriting address ty) :=
  related_unary (related_printValueLoad address) (by simp [Plain, Line.isPlain])

theorem related_printCastInstruction (op : CastOp) (v : Value) (ty srcTy : Ty) :
    Related RewrittenCode (printCastInstruction opts op v ty srcTy)
      (printCastInstruction opts.rewriting op v ty srcTy) :=
  related_unary (related_printValueLoad v) (plain_castCode op ty srcTy)

theorem related_printGepIndices (indices : List (GepType × Value)) :
    Related RewrittenCode (printGepIndices opts indices)
      (printGepIndices opts.rewriting indices) := by
  induction indices with
  | nil => exact .pure .nil
  | cons i indices ih =>
      exact (related_printGepIndex .jvm i.1 i.2.constant i.2.type
        (related_printValueLoad i.2)).bind fun is is' his =>
          ih.bind fun rest rest' hrest => .pure (his.append hrest)

theorem related_printGepInstruction (v : Value) (indices : List (GepType × Value)) :
    Related RewrittenCode (printGepInstruction opts v indices)
      (printGepInstruction opts.rewriting v indices) :=
  (related_printCastInstruction .inttoptr v .pointer v.type).bind fun _ _ hbase =>
    (related_printGepIndices indices).bind fun _ _ hrest => .pure (hbase.append hrest)

theorem related_printAllocaInstruction (ty : Ty) (arraySize : Value) :
    Related RewrittenCode (printAllocaInstruction opts ty arraySize)
      (printAllocaInstruction opts.rewriting ty arraySize) := by
  have hsize : ∀ n, RewrittenCode (printPtrLoad opts n) (printPtrLoad opts.rewriting n) :=
    fun n => .of_plain (plain_printPtrLoad n)
  unfold printAllocaInstruction
  simp only
  split
  · exact .pure ((hsize _).append_plain (by simp [Plain, Line.isPlain]))
  · exact (related_printValueLoad _).bind fun load load' hload =>
      .pure (((hsize _).append hload).append_plain (by simp [Plain, Line.isPlain]))

theorem related_printVAArgInstruction (list : Value) (ty : Ty) :
    Related RewrittenCode (printVAArgInstruction opts list ty)
      (printVAArgInstruction opts.rewriting list ty) := by
  refine (related_printIndirectLoad list .pointer).bind fun first first' hfirst =>
    (related_printValueLoad list).bind fun second second' hsecond => .pure ?_
  have hdup : Plain (lines [.dup]) := by simp [Plain, Line.isPlain]
  have hadd : Plain (lines [.arith .i .add]) := by simp [Plain, Line.isPlain]
  exact ((((hfirst.append_plain hdup).append_plain (plain_printPtrLoad _)).append_plain
    hadd).append hsecond).append_plain (by simp [Plain, Line.isPlain])

theorem related_printMathOperand (f32 : Bool) (v : Value) :
    Related RewrittenCode (printMathOperand opts f32 v)
      (printMathOperand opts.rewriting f32 v) :=
  related_unary (related_printValueLoad v) (by split_ifs <;> simp [Plain, Line.isPlain])

theorem related_printMathIntrinsic (fn : MathFunction) (operands : List Value) :
    Related Rewritten (printMathIntrinsic opts fn operands)
      (printMathIntrinsic opts.rewriting fn operands) := by
  unfold printMathIntrinsic
  split
  · next first rest =>
      have hrest : ∀ f32, Related RewrittenCode (printMathRest opts f32 rest)
          (printMathRest opts.rewriting f32 rest) := by
        intro f32
        cases rest with
        | nil => exact .pure .nil
        | cons second rest => exact related_printMathOperand f32 second
      refine (related_printMathOperand _ first).bind fun l l' hl =>
        (hrest _).bind fun r r' hr => .pure ?_
      exact (Rewritten.append (hl.append hr) (.keep rfl .nil)).append
        (.of_plain (by split_ifs <;> simp [Plain, Line.isPlain]))
  · exact .unreachable

theorem related_printIntrinsicCall (vaArgNum : ℕ) (inst : IntrinsicInst) :
    Related Rewritten (printIntrinsicCall opts vaArgNum inst)
      (printIntrinsicCall opts.rewriting vaArgNum inst) := by
  cases inst with
  | vaStart list =>
      exact (related_printValueLoad list).bind fun l l' hl =>
        .pure (hl.append (.keep rfl (.keep rfl .nil)))
  | vaCopy dest src =>
      exact (related_printValueLoad dest).bind fun d d' hd =>
        (related_printValueLoad src).bind fun s s' hs =>
          .pure ((hd.append hs).append_plain (by simp [Plain, Line.isPlain]))
  | vaEnd => exact .pure .nil
  | mem op dest source length width last =>
      have hlast : Plain (lines (printConstLoadInt opts last)) :=
        .of_isPush (isPush_printConstLoadInt _)
      exact (related_printValueLoad dest).bind fun d d' hd =>
        (related_printValueLoad source).bind fun s s' hs =>
          (related_printValueLoad length).bind fun n n' hn =>
            .pure (Rewritten.append (((hd.append hs).append hn).append_plain hlast)
              (.keep rfl .nil))
  | fltRounds => exact .pure (.keep rfl .nil)
  | ignored => exact .pure .nil
  | math fn operands => exact related_printMathIntrinsic fn operands
  | smulWithOverflow => exact .pure (.keep rfl .nil)
  | bswap ty parameter =>
      exact (related_printValueLoad (.var parameter)).bind fun l l' hl =>
        .pure (Rewritten.append hl (.keep rfl .nil))
  | smax left right =>
      exact (related_printValueLoad left).bind fun l l' hl =>
        (related_printValueLoad right).bind fun r r' hr =>
          .pure (Rewritten.append (hl.append hr) (.keep rfl .nil))

end operations

/-! ## Instructions -/

section instructions

variable {opts : GenerationOpts} {f : FunctionDef} {vaArgNum : ℕ}

theorem rewritten_switch (cases : List (ℤ × ℕ)) (defaultDest : ℕ) :
    Rewritten (printSwitchInstruction cases defaultDest)
      (printSwitchInstruction cases defaultDest) := .keep (by simp [Line.isKept, isBr]) .nil

theorem related_indirectCases (names : List String) :
    Related Eq (indirectCases f names) (indirectCases f names) := by
  induction names with
  | nil => exact .pure rfl
  | cons name names ih =>
      refine related_get.bind fun w _ hw => ?_
      obtain ⟨n, rfl⟩ := hw
      cases w.basicblockMap.lookup name with
      | none => exact .unreachable
      | some bsid =>
          cases f.blockNamed name with
          | none => exact .unreachable
          | some b => exact ih.bind_eq fun rest => .pure rfl

theorem related_printIndirectBr (address : Local) (destinations : List String) :
    Related Rewritten (printIndirectBr opts f address destinations)
      (printIndirectBr opts.rewriting f address destinations) := by
  refine (related_getLocalVarNumber address).bind_eq fun n =>
    (related_indirectCases destinations).bind_eq fun cases => ?_
  cases f.firstNamed with
  | none => exact .unreachable
  | some first => exact .pure (.keep rfl (rewritten_switch cases first.id))

variable (hopts : opts.rewriteBranches = false)

include hopts

theorem related_printOperation (op : Operation) :
    Related Rewritten (printOperation opts f vaArgNum op)
      (printOperation opts.rewriting f vaArgNum op) := by
  cases op with
  | ret v =>
      cases v with
      | none => exact .pure (.keep rfl (.keep rfl .nil))
      | some v =>
          exact (related_printValueLoad v).bind fun l l' hl =>
            .pure (.keep rfl (Rewritten.append hl (.keep rfl .nil)))
  | unreachable => exact .pure (.keep rfl (.keep rfl .nil))
  | arithmetic op left right =>
      exact related_lines (related_binary (related_printValueLoad left)
        (related_printValueLoad right) (.of_isBinary (isBinary_arithmeticCode _ _ _)))
  | fneg v =>
      exact (related_printValueLoad v).bind fun l l' hl =>
        .pure (Rewritten.append hl (.keep rfl .nil))
  | cast op v ty => exact related_lines (related_printCastInstruction op v ty v.type)
  | cmp pred left right =>
      exact related_lines (related_binary (related_printValueLoad left)
        (related_printValueLoad right) (.of_isBinary (isBinary_cmpCode _ _)))
  | br inst => exact related_lines (related_printBranchInstruction hopts inst)
  | select cond trueVal falseVal =>
      exact related_lines (related_select (related_printValueLoad cond)
        (related_printValueLoad trueVal) (related_printValueLoad falseVal))
  | load address ty => exact related_lines (related_printIndirectLoad address ty)
  | store address val =>
      exact related_lines (related_binary (related_printValueLoad address)
        (related_printValueLoad val) (by simp [Plain, Line.isPlain]))
  | getElementPtr v indices => exact related_lines (related_printGepInstruction v indices)
  | call functionVal ty args => exact related_printCall functionVal ty args
  | intrinsic inst => exact related_printIntrinsicCall vaArgNum inst
  | switch cases defaultDest => exact .pure (rewritten_switch cases defaultDest)
  | alloca ty arraySize => exact related_lines (related_printAllocaInstruction ty arraySize)
  | vaArg list ty => exact related_lines (related_printVAArgInstruction list ty)
  | indirectBr address destinations => exact related_printIndirectBr address destinations
  | invoke => exact .unreachable

theorem related_printInst (inst : Inst) :
    Related Rewritten (printInst opts f vaArgNum inst)
      (printInst opts.rewriting f vaArgNum inst) := by
  have hresult : Related RewrittenCode (printResult opts inst.result)
      (printResult opts.rewriting inst.result) := by
    cases inst.result with
    | none => exact .pure .nil
    | some v => exact related_printValueStore v
  exact (related_printOperation hopts inst.op).bind fun code code' hcode =>
    hresult.bind fun store store' hstore => .pure (hcode.append hstore)

theorem related_printInsts (insts : List Inst) :
    Related (fun code code' => Rewritten (code.flatMap Prod.snd) (code'.flatMap Prod.snd))
      (printInsts opts f vaArgNum insts) (printInsts opts.rewriting f vaArgNum insts) := by
  induction insts with
  | nil => exact .pure .nil
  | cons inst insts ih =>
      exact (related_printInst hopts inst).bind fun code code' hcode =>
        ih.bind fun rest rest' hrest => .pure (hcode.append hrest)

/-! ## The body -/

/-- The same pieces of a body, without and with rewriting. -/
def RewrittenBody (segs segs' : List Segment) : Prop :=
  Rewritten (segs.flatMap Segment.lines) (segs'.flatMap Segment.lines)

omit hopts in
theorem RewrittenBody.append {segs segs' next next' : List Segment} (h : RewrittenBody segs segs')
    (hnext : RewrittenBody next next') : RewrittenBody (segs ++ next) (segs' ++ next') := by
  unfold RewrittenBody
  rw [List.flatMap_append, List.flatMap_append]
  exact Rewritten.append h hnext

theorem related_printBasicBlock (b : BasicBlock) :
    Related (fun seg seg' => RewrittenBody [seg] [seg']) (printBasicBlock opts f vaArgNum b)
      (printBasicBlock opts.rewriting f vaArgNum b) := by
  refine (related_printLabel rfl).bind fun label label' hlabel =>
    (related_printInsts hopts b.insts).bind fun insts insts' hinsts => .pure ?_
  have hall := Rewritten.append hlabel hinsts
  simpa [RewrittenBody, Segment.lines] using hall

theorem related_printLoopBlock {inner inner' : ℕ → Emit (List Segment)}
    (hinner : ∀ l, Related RewrittenBody (inner l) (inner' l)) (l b : ℕ) :
    Related RewrittenBody (printLoopBlock opts f vaArgNum inner l b)
      (printLoopBlock opts.rewriting f vaArgNum inner' l b) := by
  unfold printLoopBlock
  split
  · split_ifs
    · exact (related_printBasicBlock hopts _).bind fun seg seg' hseg => .pure hseg
    · exact hinner _
    · exact .pure .nil
  · exact .unreachable

theorem related_printLoopBlocks {inner inner' : ℕ → Emit (List Segment)}
    (hinner : ∀ l, Related RewrittenBody (inner l) (inner' l)) (l : ℕ) (bs : List ℕ) :
    Related RewrittenBody (printLoopBlocks opts f vaArgNum inner l bs)
      (printLoopBlocks opts.rewriting f vaArgNum inner' l bs) := by
  induction bs with
  | nil => exact .pure .nil
  | cons b bs ih =>
      exact (related_printLoopBlock hopts hinner l b).bind fun first first' hfirst =>
        ih.bind fun rest rest' hrest => .pure (hfirst.append hrest)

theorem related_printLoop (n l : ℕ) :
    Related RewrittenBody (printLoop opts f vaArgNum n l)
      (printLoop opts.rewriting f vaArgNum n l) := by
  induction n generalizing l with
  | zero => exact .unreachable
  | succ n ih =>
      refine (related_printLabel rfl).bind fun label label' hlabel =>
        (related_printLoopBlocks hopts ih l _).bind fun body body' hbody => .pure ?_
      have hfirst : RewrittenBody [.header label] [.header label'] := by
        have hlines : Rewritten (lines label) (lines label') := hlabel
        simpa [RewrittenBody, Segment.lines] using hlines
      have hback : RewrittenBody [.back (gotoToken opts (.block (f.loopInfo.header l)))]
          [.back (gotoToken opts.rewriting (.block (f.loopInfo.header l)))] :=
        Rewritten.goto rfl .nil
      exact (hfirst.append hbody).append hback

theorem related_printBodyBlocks (bs : List BasicBlock) :
    Related RewrittenBody (printBodyBlocks opts f vaArgNum bs)
      (printBodyBlocks opts.rewriting f vaArgNum bs) := by
  induction bs with
  | nil => exact .pure .nil
  | cons b bs ih =>
      have hfirst : Related RewrittenBody (printBodyBlock opts f vaArgNum b)
          (printBodyBlock opts.rewriting f vaArgNum b) := by
        unfold printBodyBlock
        split
        · split_ifs
          · exact related_printLoop hopts _ _
          · exact .pure .nil
        · exact (related_printBasicBlock hopts b).bind fun seg seg' hseg => .pure hseg
      exact hfirst.bind fun first first' hfirst =>
        ih.bind fun rest rest' hrest => .pure (hfirst.append hrest)

end instructions

/-! ## Methods -/

section method

variable {opts : GenerationOpts}

theorem related_modify {g : Writer → Writer}
    (hg : ∀ w n, g { w with curRewriteBrLblId := n } = { g w with curRewriteBrLblId := n }) :
    Related Eq (modify g : Emit PUnit) (modify g) := by
  refine .of_comm fun w n => ?_
  change some (PUnit.unit, g _) = some (PUnit.unit, _)
  rw [hg w n]

theorem related_allocateLocals (vars : List Local) :
    Related Eq (allocateLocals vars) (allocateLocals vars) := by
  induction vars with
  | nil => exact .pure rfl
  | cons v vars ih => exact (related_getLocalVarNumber v).bind_eq fun _ => ih

theorem related_allocateVaArg (isVarArg : Bool) :
    Related Eq (allocateVaArg isVarArg) (allocateVaArg isVarArg) := by
  refine .of_comm fun w n => ?_
  cases isVarArg <;> rfl

theorem rewritten_initCode (ty : Ty) (n : ℕ) :
    RewrittenCode (initCode opts ty n) (initCode opts.rewriting ty n) :=
  .keep rfl (.keep rfl .nil)

theorem related_printLocalVariables (skip : Bool) (vars : List Local) :
    Related RewrittenCode (printLocalVariables opts skip vars)
      (printLocalVariables opts.rewriting skip vars) := by
  induction vars with
  | nil => exact .pure .nil
  | cons v vars ih =>
      refine ((related_getLocalVarNumber v).bind_eq fun n => .pure ?_).bind fun code code' hcode =>
        ih.bind fun rest rest' hrest => .pure (RewrittenCode.append hcode hrest)
      split_ifs
      · exact .nil
      · exact rewritten_initCode v.ty n

theorem related_printSwapParameter (parameter : Option (Ty × Local)) :
    Related RewrittenCode (printSwapParameter opts parameter)
      (printSwapParameter opts.rewriting parameter) := by
  cases parameter with
  | none => exact .pure .nil
  | some p =>
      exact (related_getLocalVarNumber p.2).bind_eq fun n => .pure (rewritten_initCode p.1 n)

theorem related_printInstVariables (skip : Bool) (insts : List Inst) :
    Related RewrittenCode (printInstVariables opts skip insts)
      (printInstVariables opts.rewriting skip insts) := by
  induction insts with
  | nil => exact .pure .nil
  | cons inst insts ih =>
      exact (related_printLocalVariables skip _).bind fun own own' hown =>
        (related_printSwapParameter _).bind fun parameter parameter' hparameter =>
          ih.bind fun rest rest' hrest => .pure ((hown.append hparameter).append hrest)

theorem related_printBlockVariables (skip : Bool) (bs : List BasicBlock) :
    Related RewrittenCode (printBlockVariables opts skip bs)
      (printBlockVariables opts.rewriting skip bs) := by
  induction bs with
  | nil => exact .pure .nil
  | cons b bs ih =>
      exact (related_printLocalVariables skip _).bind fun phis phis' hphis =>
        (related_printInstVariables skip b.insts).bind fun insts insts' hinsts =>
          ih.bind fun rest rest' hrest => .pure ((hphis.append hinsts).append hrest)

theorem related_printCatchJump (numJumps : ℕ) :
    Related Rewritten (printCatchJump numJumps) (printCatchJump numJumps) := by
  unfold printCatchJump
  split_ifs
  · exact .pure .nil
  · refine related_get.bind fun w _ hw => ?_
    obtain ⟨n, rfl⟩ := hw
    refine (related_set ⟨n, rfl⟩).bind_eq fun _ =>
      (related_printLabel rfl).bind fun label label' hlabel => .pure (.keep rfl ?_)
    have htests : RewrittenCode (catchTests w.usedRegisters numJumps)
        (catchTests w.usedRegisters numJumps) := by
      refine Rewritten.of_kept fun line hline => ?_
      obtain ⟨i, hi, rfl⟩ := List.mem_map.mp hline
      obtain ⟨k, -, hi⟩ := List.mem_flatMap.mp hi
      simp only [List.mem_cons, List.not_mem_nil, or_false] at hi
      rcases hi with rfl | rfl | rfl | rfl <;> rfl
    have hstart : ∀ var, RewrittenCode
        [.store .a .plain var, .load .a .plain var, .getfield .value]
        [.store .a .plain var, .load .a .plain var, .getfield .value] :=
      fun var => .keep rfl (.keep rfl (.keep rfl .nil))
    have hend : ∀ var, RewrittenCode [.pop, .load .a .plain var, .athrow]
        [.pop, .load .a .plain var, .athrow] := fun var => .keep rfl (.keep rfl (.keep rfl .nil))
    exact ((RewrittenCode.append hlabel (hstart _)).append htests).append (hend _)

/-- The same method, without and with rewriting. -/
structure RewrittenMethod (m m' : MethodText) : Prop where
  hasLocalLinkage : m.hasLocalLinkage = m'.hasLocalLinkage
  name : m.name = m'.name
  limitStack : m.limitStack = m'.limitStack
  limitLocals : m.limitLocals = m'.limitLocals
  lines : Rewritten m.lines m'.lines

theorem rewritten_initJumps (usedRegisters numJumps : ℕ) :
    RewrittenCode (initJumps usedRegisters numJumps) (initJumps usedRegisters numJumps) := by
  refine Rewritten.of_kept fun line hline => ?_
  obtain ⟨i, hi, rfl⟩ := List.mem_map.mp hline
  obtain ⟨k, -, hi⟩ := List.mem_flatMap.mp hi
  simp only [List.mem_cons, List.not_mem_nil, or_false] at hi
  rcases hi with rfl | rfl <;> rfl

theorem related_printFunction (hopts : opts.rewriteBranches = false) (skip : Bool)
    (f : FunctionDef) (curBasicblockMapId maxOperands : ℕ) :
    Related RewrittenMethod (printFunction opts skip f curBasicblockMapId maxOperands)
      (printFunction opts.rewriting skip f curBasicblockMapId maxOperands) := by
  have hstart : Related Eq (startFunction f curBasicblockMapId)
      (startFunction f curBasicblockMapId) := related_modify fun _ _ => rfl
  refine hstart.bind_eq fun _ => (related_allocateLocals f.args).bind_eq fun _ =>
    (related_allocateVaArg _).bind_eq fun vaArgNum =>
      (related_printBlockVariables skip f.blocks).bind fun init init' hinit =>
        related_get.bind fun w _ hw => ?_
  obtain ⟨n, rfl⟩ := hw
  refine (related_printLabel rfl).bind fun label label' hlabel =>
    (related_printBodyBlocks hopts f.blocks).bind fun body body' hbody =>
      (related_printCatchJump f.numJumps).bind fun handler handler' hhandler =>
        related_get.bind fun w₁ _ hw₁ => ?_
  obtain ⟨n₁, rfl⟩ := hw₁
  refine (related_printLabel rfl).bind fun last last' hlast => .pure ⟨rfl, rfl, rfl, rfl, ?_⟩
  have hcall : Plain (lines [.invokestatic .createStackFrame]) := by simp [Plain, Line.isPlain]
  have hprologue := ((hinit.append (rewritten_initJumps w.usedRegisters f.numJumps)).append
    hlabel).append_plain hcall
  exact Rewritten.append hprologue (Rewritten.append hbody (hhandler.append hlast))

end method

end Llxvm.Backend
