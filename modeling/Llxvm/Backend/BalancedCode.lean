import Llxvm.Backend.BodyLabels
import Llxvm.Backend.StackEffects

/-!
# The stack effects of instructions

The code of an instruction with the store of its result leaves the stack as it was, if every
constant in it is loaded as a value of the category of its type and every direct call takes what is
pushed for it.  Otherwise a line of it does not find its operands, or an entry stays.
-/

namespace Llxvm.Backend

open Llxvm.Jvm StackShapes

/-! ## Branches -/

/-- The code does not fall to what follows, and leaves the stack empty, if `p`. -/
abbrev Jumps (p : Prop) (ls : List Line) (a : List Category) : Prop :=
  Quits lineEffects labelShape p ls a

/-- The values that are copied to PHI nodes on an edge are loaded as values of their types. -/
def CopiesFit (opts : GenerationOpts) (src : ℕ) (phis : List Phi) : Prop :=
  ∀ p ∈ phis, ∀ v, p.copied src = some v → v.LoadFits opts

/-- The values that come in have the type of the PHI node. -/
def PhisTyped (phis : List Phi) : Prop :=
  ∀ p ∈ phis, ∀ src v, p.getIncomingValueForBlock src = some v →
    v.Typed ∧ v.type = p.result.ty

section branches

variable {opts : GenerationOpts} {f : Function}

theorem copiesFit_cons {src : ℕ} {p : Phi} {phis : List Phi} :
    CopiesFit opts src (p :: phis) ↔
      (∀ v, p.copied src = some v → v.LoadFits opts) ∧ CopiesFit opts src phis :=
  List.forall_mem_cons

theorem emits_printPHICopies {phis : List Phi} (h : PhisTyped phis) (src : ℕ) :
    EmitsCode (printPHICopies opts src phis) (CopiesFit opts src phis) [] [] := by
  induction phis with
  | nil => exact .pure (Yields.nil.congr (by simp [CopiesFit]))
  | cons p phis ih =>
      have ih := ih fun q hq => h q (List.mem_cons_of_mem p hq)
      unfold printPHICopies
      cases hv : p.getIncomingValueForBlock src with
      | none => exact emits_unreachable
      | some v =>
          obtain ⟨hvTyped, hty⟩ := h p List.mem_cons_self src v hv
          simp only
          split_ifs with hundef
          · refine ih.congr ?_
            simp [copiesFit_cons, Phi.copied, hv, hundef, Option.filter]
          · have hload := @emits_printValueLoad opts _ hvTyped
            rw [hty] at hload
            refine hload.bind fun load hload => (emits_printValueStore p.result).bind
              fun store hstore => ih.bind fun rest hrest => .pure ?_
            have hall := (hload.append hstore).append hrest
            refine (by simpa using hall : Leaves _ _ _ _).congr ?_
            simp [copiesFit_cons, Phi.copied, hv, hundef, Option.filter]

theorem jumps_goto {target : Label} (h : labelShape target = some []) :
    Jumps True (lines [gotoToken opts target]) [] :=
  Quits.line rfl rfl fun t ht => by
    obtain rfl := List.mem_singleton.mp ht
    exact h

variable (hphis : ∀ b, PhisTyped (f.phis b))

include hphis

theorem emits_printBranch (src dest : ℕ) :
    Emits (printBranch opts f src dest) fun code =>
      Jumps (CopiesFit opts src (f.phis dest)) (lines code) [] :=
  (emits_printPHICopies (hphis dest) src).bind fun copies hcopies => .pure (by
    rw [lines_append]
    exact (hcopies.goes.quits (jumps_goto rfl)).congr (by simp))

omit hphis

/-- A test that goes to a label, or falls. -/
structure TestsFor (ls : List Line) (target : Label) : Prop where
  goes : Goes lineEffects labelShape True ls [.one] []
  jumps : JumpsTo lineEffects ls [.one] target []

/-- The test of a rewritten branch falls to the label behind the jump. -/
theorem emits_printIfne {target : Label} (h : labelShape target = some []) :
    Emits (printIfne opts target) fun code => TestsFor (lines code) target := by
  have htest : ∀ {i : Instr} {t : Label}, i.pops = [.one] → i.pushes = [] → i.falls = true →
      i.jumps = [t] → (Line.instr i).label = none → labelShape t = some [] →
      TestsFor [.instr i] t := by
    intro i t hpops hpushes hfalls hjumps hlabel ht
    have hgoes : Goes lineEffects labelShape True [.instr i] (i.pops ++ []) (i.pushes ++ []) :=
      Goes.line hlabel hfalls fun t' ht' => by
        obtain rfl := List.mem_singleton.mp (hjumps ▸ ht' : t' ∈ [t])
        exact ht
    have hto : JumpsTo lineEffects [.instr i] (i.pops ++ []) t [] :=
      JumpsTo.line (by simp [lineEffects, Line.jumps, hjumps])
    rw [hpops, hpushes] at hgoes
    rw [hpops] at hto
    exact ⟨hgoes, hto⟩
  unfold printIfne
  split_ifs
  · intro w w' is hw hprint
    simp only [rewriteBranch, emit_bind, emit_get, Option.bind_some] at hprint
    cases hprint
    refine ⟨⟨⟨le_rfl, Nat.le_succ _, le_rfl⟩, .inl rfl⟩, ?_⟩
    have hifeq := htest (i := .ifeq (.br w.curRewriteBrLblId)) rfl rfl rfl rfl rfl rfl
    have hgoto : Jumps True (lines [.goto true target]) [] :=
      Quits.line rfl rfl fun t ht => by
        obtain rfl := List.mem_singleton.mp ht
        exact h
    have hto : JumpsTo lineEffects (lines [.goto true target]) [] target [] :=
      JumpsTo.line (e := lineEffects) (l := .instr (.goto true target)) (s := [])
        (List.mem_singleton_self _)
    have hlabel : lineEffects.label (.instr (.label (.br w.curRewriteBrLblId))) =
        some (.br w.curRewriteBrLblId) := rfl
    have hpasses : Passes lineEffects (lines [.ifeq (.br w.curRewriteBrLblId), .goto true target,
        .label (.br w.curRewriteBrLblId)]) [.one] [] :=
      hifeq.jumps.passes (lines [.goto true target]) hlabel .nil
    refine ⟨⟨fun _ => ⟨?_, hpasses⟩, fun a' hlength hno => ?_⟩, ?_⟩
    · have hend : FlowsTo [.instr (.label (.br w.curRewriteBrLblId))] [] [] := Flows.label rfl rfl
      exact ((hifeq.goes.straight trivial).flows.append (hgoto.flows trivial [])).append hend
    · have hpops : ¬ [Category.one] <+: a' := by
        intro hpre
        exact hno ⟨trivial, (hpre.eq_of_length hlength.symm).symm⟩
      have hline : Breaks lineEffects [.instr (.ifeq (.br w.curRewriteBrLblId))] a' := .line hpops
      exact .inl (hline.append _)
    · have hfall := (hifeq.goes.straight trivial).passes.jumpsTo hto
      intro all rest l rest' hsuffix
      exact hfall all (Line.instr (.label (.br w.curRewriteBrLblId)) :: rest) l rest' hsuffix
  · exact .pure (htest rfl rfl rfl rfl rfl h)

include hphis

theorem emits_printFalseCopies (src dest : ℕ) :
    EmitsCode (printFalseCopies opts f src dest) (CopiesFit opts src (f.phis dest)) [] [] := by
  rw [printFalseCopies_eq]
  exact emits_printPHICopies (hphis dest) src

/-- Both ends of a conditional branch are reached with what is below the condition. -/
theorem emits_printBranchIf (src t e : ℕ) :
    Emits (printBranchIf opts f src t (some e)) fun code =>
      Jumps (CopiesFit opts src (f.phis t) ∧ CopiesFit opts src (f.phis e)) (lines code)
        [.one] := by
  unfold printBranchIf
  simp only
  split_ifs with hte hnil
  · subst hte
    refine (emits_printBranch hphis src t).bind fun br hbr => .pure ?_
    have hpop : Leaves True (lines [.pop]) [.one] [] := leaves_code rfl
    exact (hpop.goes.quits hbr).congr (by simp)
  · rw [trueLabel, if_pos hnil, pure_bind]
    refine (emits_printIfne rfl).bind fun br hbr =>
      (emits_printFalseCopies hphis src e).bind fun copies hcopies => .pure ?_
    have htrue : CopiesFit opts src (f.phis t) := by
      rw [List.isEmpty_iff.mp hnil]
      simp [CopiesFit]
    have hall := (hbr.goes.append hcopies.goes).quits (@jumps_goto opts (.block e) rfl)
    refine (by simpa using hall : Jumps _ _ _).congr ?_
    simp [htrue]
  · intro w w' is hw hprint
    obtain ⟨l, w₁, hl, h₁⟩ := emit_bind_eq_some hprint
    obtain ⟨br, w₂, hbr, h₂⟩ := emit_bind_eq_some h₁
    obtain ⟨copies, w₃, hcopies, h₃⟩ := emit_bind_eq_some h₂
    obtain ⟨label, w₄, hlab, h₄⟩ := emit_bind_eq_some h₃
    obtain ⟨trueCopies, w₅, htrue, h₅⟩ := emit_bind_eq_some h₄
    clear hprint h₁ h₂ h₃ h₄
    rw [trueLabel, if_neg hnil] at hl
    cases hl
    cases h₅
    have hfirst : Moves w { w with uid := w.uid + 1 } :=
      ⟨⟨Nat.le_succ _, le_rfl, le_rfl⟩, .inl rfl⟩
    have hnew : NewLabel w { w with uid := w.uid + 1 } (.phi t (w.uid + 1)) := by simp [NewLabel]
    obtain ⟨hmoves₂, htest⟩ := emits_printIfne rfl (hfirst.lastOld hw) hbr
    obtain ⟨hmoves₃, hleaves₃⟩ :=
      emits_printFalseCopies hphis src e ((hfirst.trans hmoves₂).lastOld hw) hcopies
    have hto₃ := hmoves₂.trans hmoves₃
    have hne : w₃.lastLabel ≠ some (.phi t (w.uid + 1)) :=
      hto₃.last_ne (fun heq => hnew.not_old (hw _ heq)) hnew.old
    rw [printLabel_of_ne hne] at hlab
    cases hlab
    have hto₄ := (hfirst.trans hto₃).label (hnew.mono_right hto₃.toLater)
    obtain ⟨hmoves₅, hleaves₅⟩ :=
      emits_printPHICopies (hphis t) src (hto₄.lastOld hw) htrue
    refine ⟨hto₄.trans hmoves₅, ?_⟩
    have hfalse := hleaves₃.goes.quits (@jumps_goto opts (.block e) rfl)
    have htrue := hleaves₅.goes.quits (@jumps_goto opts (.block t) rfl)
    have hall := Quits.branch htest.goes htest.jumps
      (l := .instr (.label (.phi t (w.uid + 1)))) rfl rfl hfalse htrue
    refine (by simpa using hall : Jumps _ _ _).congr ?_
    exact and_comm

end branches

/-- The condition and the copies of a branch are loaded as values of their types. -/
def BranchInst.Fits (opts : GenerationOpts) (f : Function) : BranchInst → Prop
  | .unconditional src dest => CopiesFit opts src (f.phis dest)
  | .conditional src cond t e =>
      cond.LoadFits opts ∧ CopiesFit opts src (f.phis t) ∧ CopiesFit opts src (f.phis e)

def BranchInst.Typed : BranchInst → Prop
  | .unconditional _ _ => True
  | .conditional _ cond _ _ => cond.type = .int .w1 ∧ cond.Typed

theorem emits_printBranchInstruction {opts : GenerationOpts} {f : Function}
    (hphis : ∀ b, PhisTyped (f.phis b)) {inst : BranchInst} (h : inst.Typed) :
    Emits (printBranchInstruction opts f inst) fun code =>
      Jumps (inst.Fits opts f) (lines code) [] := by
  cases inst with
  | unconditional src dest => exact emits_printBranch hphis src dest
  | conditional src cond t e =>
      have hload := @emits_printValueLoad opts _ h.2
      rw [h.1] at hload
      refine hload.bind fun load hload =>
        (emits_printBranchIf hphis src t e).bind fun br hbr => .pure ?_
      rw [lines_append]
      exact hload.goes.quits hbr

/-! ## Operands of instructions -/

section operands

variable {opts : GenerationOpts}

theorem emits_printArguments {args : List Value} (h : ∀ v ∈ args, v.Typed) :
    EmitsCode (printArguments opts args) (∀ v ∈ args, v.LoadFits opts) []
      (args.map fun v => v.type.category).reverse := by
  induction args with
  | nil => exact .pure (Yields.nil.congr (by simp))
  | cons v args ih =>
      have hload := @emits_printValueLoad opts _ (h v List.mem_cons_self)
      have ih := ih fun u hu => h u (List.mem_cons_of_mem v hu)
      refine hload.bind fun load hload => ih.bind fun rest hrest => .pure ?_
      have hall := hload.append (hrest.frame [v.type.category])
      exact (by simpa using hall : Leaves _ _ _ _).congr (by simp)

/-- The address of the next slot stays on the stack. -/
theorem emits_printPackCalls {args : List Value} (h : ∀ v ∈ args, v.Typed) :
    EmitsCode (printPackCalls opts args) (∀ v ∈ args, v.LoadFits opts) [.one] [.one] := by
  induction args with
  | nil => exact .pure (Yields.nil.congr (by simp))
  | cons v args ih =>
      have hload := @emits_printValueLoad opts _ (h v List.mem_cons_self)
      have ih := ih fun u hu => h u (List.mem_cons_of_mem v hu)
      refine hload.bind fun load hload => ih.bind fun rest hrest => .pure ?_
      have hpack : Leaves True (lines [.invokestatic (.pack (getTypeDescriptor v.type false))])
          [v.type.category, .one] [.one] := leaves_instr rfl
      have hall := ((hload.frame [.one]).append hpack).append hrest
      exact (by simpa using hall : Leaves _ _ _ _).congr (by simp)

theorem emits_printOperandPack {args : List Value} (h : ∀ v ∈ args, v.Typed) :
    EmitsCode (printOperandPack opts args) (∀ v ∈ args, v.LoadFits opts) [] [.one] := by
  refine (emits_printPackCalls h).bind fun calls hcalls => .pure ?_
  have hblock : Leaves True (lines [if operandSize args < 256 then .bipush (operandSize args)
      else .sipush (operandSize args), .invokestatic .allocateStack, .dup]) [] [.one, .one] := by
    split_ifs <;> exact leaves_code rfl
  have hpop : Leaves True (lines [.pop]) [.one, .one] [.one] := leaves_code rfl
  have hall := (hblock.append (hcalls.frame [.one])).append hpop
  exact (by simpa using hall : Leaves _ _ _ _).congr (by simp)

/-- The numbers and the loads of the indices of a `getelementptr`. -/
def GepFits (opts : GenerationOpts) (indices : List (GepType × Value)) : Prop :=
  ∀ i ∈ indices, GepIndexFits opts i.1 i.2.constant (i.2.LoadFits opts)

theorem emits_printGepIndices {indices : List (GepType × Value)} (h : ∀ i ∈ indices, i.2.Typed) :
    EmitsCode (printGepIndices opts indices) (GepFits opts indices) [.one] [.one] := by
  induction indices with
  | nil => exact .pure (Yields.nil.congr (by simp [GepFits]))
  | cons i indices ih =>
      have hload := @emits_printValueLoad opts _ (h i List.mem_cons_self)
      have hindex := @emits_printGepIndex opts _ i.1 i.2.constant i.2.type _ hload
      have hall := emits_append hindex (ih fun j hj => h j (List.mem_cons_of_mem i hj))
      exact hall.congr (by simp [GepFits])

/-- The numbers that are printed for an `alloca` fit, and a number of elements that is loaded takes
one word. -/
def AllocaFits (opts : GenerationOpts) (ty : Ty) (arraySize : Value) : Prop :=
  let size := DataLayout.jvm.getTypeAllocSize ty
  match arraySize with
  | .const (.int _ n) => PtrFits opts (n.toNat * size)
  | arraySize => PtrFits opts size ∧ arraySize.LoadsWord opts

theorem emits_printAllocaInstruction (ty : Ty) {arraySize : Value} (h : arraySize.Typed) :
    EmitsCode (printAllocaInstruction opts ty arraySize) (AllocaFits opts ty arraySize) []
      [.one] := by
  have hallocate : Leaves True (lines [.invokestatic .allocateStack]) [.one] [.one] :=
    leaves_code rfl
  unfold printAllocaInstruction AllocaFits
  simp only
  split
  · refine .pure ?_
    rw [lines_append]
    exact ((leaves_printPtrLoad _).append hallocate).congr (by simp)
  · refine (emits_word h).bind fun load hload => .pure ?_
    have hmul : Leaves True (lines [.arith .i .mul, .invokestatic .allocateStack]) [.one, .one]
        [.one] := leaves_code rfl
    have hsize := @leaves_printPtrLoad opts (DataLayout.jvm.getTypeAllocSize ty)
    have hall := (hsize.append (hload.frame [.one])).append hmul
    exact (by simpa using hall : Leaves _ _ _ _).congr (by simp)

end operands

/-! ## Calls -/

/-- What a direct call pushes, the first parameter first. -/
def FunctionType.pushed (ty : FunctionType) : List Category :=
  ty.params.map Ty.category ++ if ty.isVarArg then [.one] else []

/-- What a call leaves. -/
def FunctionType.results (ty : FunctionType) : List Category := ty.returnType.toList.map Ty.category

section calls

variable {opts : GenerationOpts}

theorem pops_methodName (f : FunctionRef) : (methodName f).params.map TypeID.category =
    if f.type.isVarArg ∧ f.type.params = [] then [] else f.type.pushed := by
  unfold methodName getCallSignature FunctionType.pushed
  split_ifs with hnone hvararg
  · rfl
  · simp only [List.map_append, List.map_map]
    rfl
  · simp only [List.map_append, List.map_map]
    rfl

theorem resultCategories_ret (ty : FunctionType) :
    resultCategories (getCallSignature ty).2 = ty.results := by
  have hret : (getCallSignature ty).2 =
      ty.returnType.elim .V fun t => getTypeDescriptor t false := by
    unfold getCallSignature
    cases ty.returnType <;> simp only [Option.elim] <;> split_ifs <;> rfl
  rw [hret, FunctionType.results]
  cases ty.returnType with
  | none => rfl
  | some t =>
      have hne := getTypeDescriptor_ne_void t
      simp only [Option.elim, Option.toList_some, List.map_cons, List.map_nil]
      unfold resultCategories
      split
      · next h => exact (hne h).elim
      · rfl

/-- What follows a call of `setjmp`. -/
def setjmpCode (n : ℕ) : Code := [.store .i .plain n, .const .i 0, .label (.setjmp n)]

/-- The lines of a direct call. -/
structure DirectCall (f : FunctionRef) (p : Prop) (ls : List Line) : Prop where
  parts : ∃ operands cls after, ls = lines operands ++ [.call (.method cls (methodName f))] ++
      lines after ∧ Leaves p (lines operands) [] f.type.pushed.reverse ∧
    if f.name = "setjmp" then ∃ n, after = setjmpCode n else after = []

theorem emits_printSetjmp (isSetjmp : Bool) : Emits (printSetjmp isSetjmp) fun code =>
    if isSetjmp then ∃ n, code = setjmpCode n else code = [] := by
  intro w w' code hw hprint
  unfold printSetjmp at hprint
  split_ifs at hprint ⊢ with hset
  · obtain ⟨_, _, hget, h₁⟩ := emit_bind_eq_some hprint
    cases hget
    obtain ⟨_, _, hput, h₂⟩ := emit_bind_eq_some h₁
    cases hput
    obtain ⟨label, _, hlabel, h₃⟩ := emit_bind_eq_some h₂
    have hmoves : Moves w { w with usedRegisters := w.usedRegisters + 1 } :=
      ⟨⟨le_rfl, le_rfl, Nat.le_succ _⟩, .inl rfl⟩
    have hnew : NewLabel w { w with usedRegisters := w.usedRegisters + 1 }
        (.setjmp w.usedRegisters) := by simp [NewLabel]
    have hne : ({ w with usedRegisters := w.usedRegisters + 1 } : Writer).lastLabel ≠
        some (.setjmp w.usedRegisters) := fun heq => hnew.not_old (hw _ heq)
    rw [printLabel_of_ne hne] at hlabel
    cases hlabel
    cases h₃
    exact ⟨hmoves.label hnew, _, rfl⟩
  · cases hprint
    exact ⟨.refl w, rfl⟩

/-- What the verifier of LLVM checks of the arguments of a direct call. -/
structure ArgumentsTyped (f : FunctionRef) (args : List Value) : Prop where
  typed : ∀ v ∈ args, v.Typed
  params : (args.take f.type.params.length).map Value.type = f.type.params
  length : f.type.isVarArg = false → args.length = f.type.params.length

theorem emits_printCall_direct {f : FunctionRef} (ty : FunctionType) {args : List Value}
    (h : ArgumentsTyped f args) : Emits (printCall opts (.const (.function f)) ty args)
      (DirectCall f (∀ v ∈ args, v.LoadFits opts)) := by
  have hcall : Emits (printFunctionCall opts (.const (.function f)) ty args) fun call =>
      Leaves (∀ v ∈ args, v.LoadFits opts) (lines call.operands) [] f.type.pushed.reverse ∧
        ∃ cls, call.callee = .method cls (methodName f) := by
    refine (emits_printArguments fun v hv => h.typed v (List.mem_of_mem_take hv)).bind
      fun fixed hfixed => ?_
    have hcategories : (args.take f.type.params.length).map (fun v => v.type.category) =
        f.type.params.map Ty.category := by
      have hmap := congrArg (List.map Ty.category) h.params
      rwa [List.map_map] at hmap
    rw [hcategories] at hfixed
    have hvariadic : EmitsCode (printVariadic opts f.type args)
        (∀ v ∈ args.drop f.type.params.length, v.LoadFits opts) []
        (if f.type.isVarArg then [.one] else []) := by
      unfold printVariadic
      split_ifs with hvararg
      · exact emits_printOperandPack fun v hv => h.typed v (List.mem_of_mem_drop hv)
      · refine .pure (Yields.nil.congr ?_)
        rw [List.drop_eq_nil_of_le (h.length (by simpa using hvararg)).le]
        simp
    refine hvariadic.bind fun packed hpacked => .pure ⟨?_, _, rfl⟩
    have hall := hfixed.append (hpacked.frame (f.type.params.map Ty.category).reverse)
    have hpushed : f.type.pushed.reverse = (if f.type.isVarArg then [Category.one] else []) ++
        (f.type.params.map Ty.category).reverse := by
      rw [FunctionType.pushed, List.reverse_append]
      split_ifs <;> rfl
    rw [lines_append, hpushed]
    refine (by simpa using hall : Leaves _ _ _ _).congr ?_
    rw [← List.forall_mem_append, List.take_append_drop]
  refine hcall.bind fun call hcall => (emits_printSetjmp _).bind fun after hafter => .pure ?_
  obtain ⟨hoperands, cls, hcallee⟩ := hcall
  refine ⟨call.operands, cls, after, by simp [hcallee], hoperands, ?_⟩
  simpa [Operation.isSetjmp] using hafter

theorem emits_printCall_indirect {functionVal : Value}
    (hval : ∀ f, functionVal ≠ .const (.function f)) (hpointer : functionVal.type = .pointer)
    (hvalTyped : functionVal.Typed) (ty : FunctionType) {args : List Value}
    (hargs : ∀ v ∈ args, v.Typed) : Emits (printCall opts functionVal ty args) fun ls =>
      Leaves (functionVal.LoadFits opts ∧ ∀ v ∈ args, v.LoadFits opts) ls [] ty.results := by
  have hset : (Operation.call functionVal ty args).isSetjmp = false := by
    unfold Operation.isSetjmp
    split
    · next heq =>
        cases heq
        exact (hval _ rfl).elim
    · rfl
  unfold printCall
  rw [printFunctionCall_indirect opts hval, hset]
  simp only [bind_assoc, pure_bind]
  have hload := @emits_printValueLoad opts _ hvalTyped
  rw [hpointer] at hload
  refine hload.bind fun load hload => (emits_printOperandPack hargs).bind fun packed hpacked =>
    (emits_printSetjmp false).bind fun after hafter => .pure ?_
  obtain rfl : after = [] := hafter
  have hinvoke : Leaves True [.call (.invoke (getCallSignature ty).2)] [.one, .one] ty.results := by
    rw [← resultCategories_ret]
    exact Yields.line rfl rfl rfl
  have hall := (hload.append (hpacked.frame [.one])).append hinvoke
  exact (by simpa using hall : Leaves _ _ _ _).congr (by simp)

/-- The descriptor of the method has what is pushed for a direct call, and `setjmp` has a result of
one word. -/
def FunctionRef.CallFits (f : FunctionRef) : Prop :=
  ¬ (f.type.isVarArg ∧ f.type.params = []) ∧ (f.name = "setjmp" → f.type.results = [.one])

theorem goes_setjmpCode (n : ℕ) :
    Goes lineEffects labelShape True (lines (setjmpCode n)) [.one] [.one] := by
  have hstore : Leaves True (lines [.store .i .plain n, .const .i 0]) [.one] [.one] :=
    leaves_code rfl
  have hlabel : Goes lineEffects labelShape True [.instr (.label (.setjmp n))] [.one] [.one] :=
    .label rfl rfl
  exact (hstore.goes.append hlabel).congr (by simp)

/-- The code behind a call of `setjmp` puts an entry in the place of the result. -/
theorem setjmpCode_passes (n : ℕ) (s : List Category) :
    Breaks lineEffects (lines (setjmpCode n)) s ∨
      ∃ t, s = .one :: t ∧ Passes lineEffects (lines (setjmpCode n)) s s := by
  by_cases hpops : [Category.one] <+: s
  · obtain ⟨t, rfl⟩ := hpops
    have hstore : Leaves True (lines [.store .i .plain n, .const .i 0]) [.one] [.one] :=
      leaves_code rfl
    have hlabel : Passes lineEffects [.instr (.label (.setjmp n))] (.one :: t) (.one :: t) :=
      .label rfl
    exact .inr ⟨t, rfl, ((hstore t).straight trivial).passes.append hlabel⟩
  · have hline : Breaks lineEffects [.instr (.store .i .plain n)] s := .line hpops
    exact .inl (hline.append _)

theorem FunctionType.length_results_le (ty : FunctionType) : ty.results.length ≤ 1 := by
  unfold FunctionType.results
  cases ty.returnType <;> simp

variable {f : FunctionRef} {p : Prop} {ls store : List Line}

theorem leaves_call {cls : Option ClassName} (hnone : ¬ (f.type.isVarArg ∧ f.type.params = [])) :
    Strict lineEffects labelShape [.call (.method cls (methodName f))] f.type.pushed.reverse
      f.type.results := by
  have hline : Strict lineEffects labelShape [.call (.method cls (methodName f))]
      ((methodName f).params.map TypeID.category).reverse (resultCategories (methodName f).ret) :=
    Strict.line rfl rfl rfl
  rwa [pops_methodName, if_neg hnone, methodName, resultCategories_ret] at hline

theorem DirectCall.goes (h : DirectCall f p ls) (hfits : f.CallFits) :
    Goes lineEffects labelShape p ls [] f.type.results := by
  obtain ⟨operands, cls, after, rfl, hoperands, hafter⟩ := h
  have hcall := (hoperands.append (@leaves_call f cls hfits.1).yields).goes
  split_ifs at hafter with hname
  · obtain ⟨n, rfl⟩ := hafter
    have hset := goes_setjmpCode n
    rw [← hfits.2 hname] at hset
    exact (hcall.append hset).congr (by simp)
  · obtain rfl := hafter
    rw [lines_nil, List.append_nil]
    exact hcall.congr (by simp)

/-- The code behind the call breaks, or leaves the stack as it is. -/
theorem after_passes {after : Code}
    (hafter : if f.name = "setjmp" then ∃ n, after = setjmpCode n else after = [])
    (s : List Category) :
    Breaks lineEffects (lines after) s ∨ Passes lineEffects (lines after) s s := by
  split_ifs at hafter
  · obtain ⟨n, rfl⟩ := hafter
    exact (setjmpCode_passes n s).imp_right fun ⟨_, _, hpasses⟩ => hpasses
  · obtain rfl := hafter
    exact .inr .nil

/-- The stack is left empty only if the call fits. -/
theorem DirectCall.callFits (h : DirectCall f p ls) (hstore : Leaves True store f.type.results [])
    (hb : Balanced lineEffects (ls ++ store)) : f.CallFits := by
  obtain ⟨operands, cls, after, rfl, hoperands, hafter⟩ := h
  have hno : ∀ s, Passes lineEffects (lines operands ++ [.call (.method cls (methodName f))]) [] s →
      ¬ Breaks lineEffects (lines after) s := fun s hpasses hbreaks =>
    hb.not_breaks ((hpasses.breaks hbreaks).append store)
  by_cases hnone : f.type.isVarArg ∧ f.type.params = []
  · -- the address of the packed operands stays on the stack
    exfalso
    have hone : f.type.pushed.reverse = [.one] := by simp [FunctionType.pushed, hnone]
    rw [hone] at hoperands
    rcases hoperands.goes.passes (rfl : ([] : List Category).length = _) with
      hbreaks | ⟨s, hs, hpasses⟩
    · exact hb.not_breaks (((hbreaks.append _).append _).append _)
    · have hcall : Passes lineEffects [.call (.method cls (methodName f))] s
          (f.type.results ++ s) := by
        have hline : Passes lineEffects [.call (.method cls (methodName f))]
            (((methodName f).params.map TypeID.category).reverse ++ s)
            (resultCategories (methodName f).ret ++ s) := .line rfl
        rwa [pops_methodName, if_pos hnone, methodName, resultCategories_ret] at hline
      have hfirst := hpasses.append hcall
      have hrest := (after_passes hafter _).resolve_left (hno _ hfirst)
      have hall := (hfirst.append hrest).append ((hstore s).straight trivial).passes
      have hnil := hb.ending_eq hall
      rw [List.nil_append] at hnil
      rw [hnil] at hs
      cases hs
  · refine ⟨hnone, fun hname => ?_⟩
    rw [if_pos hname] at hafter
    obtain ⟨n, rfl⟩ := hafter
    have hstrict := @leaves_call f cls hnone
    have hoperands' := hoperands.goes
    by_cases hp : p
    · have hfirst := (hoperands'.straight hp).passes.append
        (hstrict.yields.goes.straight trivial).passes
      rcases setjmpCode_passes n f.type.results with hbreaks | ⟨t, ht, -⟩
      · exact (hno _ hfirst hbreaks).elim
      · have hlength := f.type.length_results_le
        rw [ht, List.length_cons] at hlength
        rw [ht, List.eq_nil_of_length_eq_zero (by omega : t.length = 0)]
    · -- the call does not find its operands
      exfalso
      rcases hoperands'.wrong [] rfl fun h => hp h.1 with hbreaks | ⟨s, hs, hne, hpasses⟩
      · exact hb.not_breaks (((hbreaks.append _).append _).append _)
      · have hbreaks := hstrict.breaks s [] hs hne
        rw [List.append_nil] at hbreaks
        exact hb.not_breaks (((hpasses.breaks hbreaks).append _).append _)

end calls

/-! ## Instructions -/

namespace Operation

/-- Returns, branches, arithmetic, comparisons, casts, `select`, accesses to memory, and calls of
functions that are not intrinsic. -/
def isCore : Operation → Bool
  | ret _ => true
  | arithmetic _ _ _ => true
  | cast _ _ _ => true
  | cmp _ _ _ => true
  | br _ => true
  | select _ _ _ => true
  | load _ _ => true
  | store _ _ => true
  | getElementPtr _ _ => true
  | call _ _ _ => true
  | alloca _ _ => true
  | _ => false

def isTerminator : Operation → Bool
  | ret _ => true
  | unreachable => true
  | br _ => true
  | switch _ _ => true
  | indirectBr _ _ => true
  | invoke => true
  | _ => false

/-- The type of a core operation. -/
def resultType : Operation → Option Ty
  | arithmetic _ left _ => some left.type
  | cast _ _ ty => some ty
  | cmp _ _ _ => some (.int .w1)
  | select _ trueVal _ => some trueVal.type
  | load _ ty => some ty
  | getElementPtr _ _ => some .pointer
  | call _ ty _ => ty.returnType
  | alloca _ _ => some .pointer
  | _ => none

/-- The operands of a core operation have the types that the verifier of LLVM asks for. -/
def Typed : Operation → Prop
  | ret (some v) => v.Typed
  | arithmetic _ left right => left.type = right.type ∧ left.Typed ∧ right.Typed
  | cast op v ty => op.IsValid v.type ty ∧ v.Typed
  | cmp _ left right => left.type = right.type ∧ left.Typed ∧ right.Typed
  | br inst => inst.Typed
  | select cond trueVal falseVal => cond.type = .int .w1 ∧ trueVal.type = falseVal.type ∧
      cond.Typed ∧ trueVal.Typed ∧ falseVal.Typed
  | load address _ => address.type = .pointer ∧ address.Typed
  | store address val => address.type = .pointer ∧ address.Typed ∧ val.Typed
  | getElementPtr v indices => v.type = .pointer ∧ v.Typed ∧ ∀ i ∈ indices, i.2.Typed
  | call (.const (.function f)) ty args => ty = f.type ∧ ArgumentsTyped f args
  | call functionVal _ args =>
      functionVal.type = .pointer ∧ functionVal.Typed ∧ ∀ v ∈ args, v.Typed
  | alloca _ arraySize => arraySize.Typed
  | _ => True

/-- Every constant is loaded as a value of the category of its type, and a direct call takes what is
pushed for it. -/
def Fits (opts : GenerationOpts) (f : Function) : Operation → Prop
  | ret (some v) => v.LoadFits opts
  | arithmetic _ left right => left.LoadFits opts ∧ right.LoadFits opts
  | cast _ v _ => v.LoadFits opts
  | cmp _ left right => left.LoadFits opts ∧ right.LoadFits opts
  | br inst => inst.Fits opts f
  | select cond trueVal falseVal =>
      cond.LoadFits opts ∧ trueVal.LoadFits opts ∧ falseVal.LoadFits opts
  | load address _ => address.LoadFits opts
  | store address val => address.LoadFits opts ∧ val.LoadFits opts
  | getElementPtr v indices => v.LoadFits opts ∧ GepFits opts indices
  | call (.const (.function f)) _ args => (∀ v ∈ args, v.LoadFits opts) ∧ f.CallFits
  | call functionVal _ args => functionVal.LoadFits opts ∧ ∀ v ∈ args, v.LoadFits opts
  | alloca ty arraySize => AllocaFits opts ty arraySize
  | _ => True

theorem indirect_cases {functionVal : Value} (h : ∀ g, functionVal ≠ .const (.function g))
    (opts : GenerationOpts) (f : Function) (ty : FunctionType) (args : List Value) :
    ((call functionVal ty args).Typed ↔
      functionVal.type = .pointer ∧ functionVal.Typed ∧ ∀ v ∈ args, v.Typed) ∧
    ((call functionVal ty args).Fits opts f ↔
      functionVal.LoadFits opts ∧ ∀ v ∈ args, v.LoadFits opts) := by
  cases functionVal with
  | var v => exact ⟨.rfl, .rfl⟩
  | const c =>
      cases c with
      | function g => exact (h g rfl).elim
      | _ => exact ⟨.rfl, .rfl⟩

end Operation

section insts

variable {opts : GenerationOpts} {f : FunctionDef} {vaArgNum : ℕ}

theorem emits_lines {x : Emit Code} {p : Prop} {i o : List Category} (hx : EmitsCode x p i o) :
    Emits (do return lines (← x)) fun ls => Leaves p ls i o := hx.bind fun _ h => .pure h

/-- An operation that is neither a direct call nor the end of a block. -/
theorem emits_printOperation {op : Operation} (hcore : op.isCore) (hterm : op.isTerminator = false)
    (hcall : ∀ g ty args, op ≠ .call (.const (.function g)) ty args) (htyped : op.Typed) :
    Emits (printOperation opts f vaArgNum op) fun ls =>
      Leaves (op.Fits opts f.branches) ls [] (op.resultType.toList.map Ty.category) := by
  cases op with
  | arithmetic op left right =>
      exact emits_lines (emits_binary (emits_printValueLoad htyped.2.1)
        (emits_printValueLoad htyped.2.2) (strict_arithmeticCode op htyped.1).yields)
  | cast op v ty =>
      exact emits_lines (emits_unary (emits_printValueLoad htyped.2) (leaves_castCode htyped.1))
  | cmp pred left right =>
      exact emits_lines (emits_binary (emits_printValueLoad htyped.2.1)
        (emits_printValueLoad htyped.2.2) (strict_cmpCode pred htyped.1).yields)
  | select cond trueVal falseVal =>
      obtain ⟨hcond, htypes, hcondTyped, htrue, hfalse⟩ := htyped
      have hc := @emits_printValueLoad opts _ hcondTyped
      rw [hcond] at hc
      have hf := @emits_printValueLoad opts _ hfalse
      rw [← htypes] at hf
      exact emits_lines (emits_select hc (emits_printValueLoad htrue) hf)
  | load address ty =>
      have hload := @emits_printValueLoad opts _ htyped.2
      rw [htyped.1] at hload
      have hcall : Leaves True (lines [.invokestatic (.load (getTypeDescriptor ty false))]) [.one]
          [ty.category] := leaves_instr rfl
      exact emits_lines (emits_unary hload hcall)
  | store address val =>
      have hload := @emits_printValueLoad opts _ htyped.2.1
      rw [htyped.1] at hload
      have hcall : Leaves True (lines [.invokestatic (.store (getTypeDescriptor val.type false))])
          [val.type.category, .one] [] := leaves_instr rfl
      exact emits_lines (emits_binary hload (emits_printValueLoad htyped.2.2) hcall)
  | getElementPtr v indices =>
      have hload := @emits_printValueLoad opts _ htyped.2.1
      have hcast := (converts_printCastPrefix .i (getTypePrefix v.type true)).leaves
      rw [category_getTypePrefix] at hcast
      exact emits_lines (emits_append (emits_unary hload hcast)
        (emits_printGepIndices htyped.2.2))
  | alloca ty arraySize => exact emits_lines (emits_printAllocaInstruction ty htyped)
  | call functionVal ty args =>
      have hval : ∀ g, functionVal ≠ .const (.function g) := by
        rintro g rfl
        exact hcall g ty args rfl
      obtain ⟨htypes, hfits⟩ := Operation.indirect_cases hval opts f.branches ty args
      obtain ⟨hpointer, hvalTyped, hargs⟩ := htypes.mp htyped
      exact (emits_printCall_indirect hval hpointer hvalTyped ty hargs).imp
        fun _ h => h.congr hfits
  | ret v => cases hterm
  | br inst => cases hterm
  | unreachable => cases hcore
  | fneg v => cases hcore
  | intrinsic inst => cases hcore
  | switch cs d => cases hcore
  | vaArg list ty => cases hcore
  | indirectBr address destinations => cases hcore
  | invoke => cases hcore

theorem emits_terminator (hphis : ∀ b, PhisTyped (f.branches.phis b)) {op : Operation}
    (hcore : op.isCore) (hterm : op.isTerminator) (htyped : op.Typed) :
    Emits (printOperation opts f vaArgNum op) fun ls => Jumps (op.Fits opts f.branches) ls [] := by
  have hdestroy : Leaves True (lines [.invokestatic .destroyStackFrame]) [] [] := leaves_code rfl
  have hreturn : ∀ text, Jumps True [.simple text] (returned text) := fun text =>
    Quits.line rfl rfl (by simp [lineEffects, Line.jumps])
  cases op with
  | ret v =>
      cases v with
      | none =>
          refine .pure ((hdestroy.goes.quits (hreturn "return")).congr ?_)
          simp [Operation.Fits]
      | some v =>
          have hload := @emits_printValueLoad opts _ (show v.Typed from htyped)
          refine hload.bind fun load hload => .pure ?_
          have hlast : returned (prefixText (getTypePrefix v.type true) ++ "return") =
              [v.type.category] := by
            rw [← category_getTypePrefix v.type true]
            rcases v.type.letter_cases with ⟨hletter | hletter, -⟩ | ⟨hletter | hletter, -⟩ <;>
            · rw [Ty.letter] at hletter
              rw [hletter]
              rfl
          have hquits := hreturn (prefixText (getTypePrefix v.type true) ++ "return")
          rw [hlast] at hquits
          have hall := (hdestroy.append hload).goes.quits hquits
          exact hall.congr (by simp [Operation.Fits])
  | br inst => exact (emits_printBranchInstruction hphis htyped).bind fun code hcode => .pure hcode
  | unreachable => cases hcore
  | switch cs d => cases hcore
  | indirectBr address destinations => cases hcore
  | invoke => cases hcore
  | _ => cases hterm

theorem emits_printResult (result : Option Local) :
    EmitsCode (printResult opts result) True (result.toList.map fun v => v.ty.category) [] := by
  cases result with
  | none => exact .pure .nil
  | some v => exact emits_printValueStore v

/-- Lines that are not directives, and instructions without a meaning of their own only if they
return. -/
def Line.isKnown : Line → Bool
  | .instr _ => true
  | .call _ => true
  | .simple text => text = "return" ∨ returned text ≠ []
  | _ => false

/-- The text of an instruction: it leaves the stack empty if the instruction fits, and otherwise
does not. -/
structure InstText (opts : GenerationOpts) (f : Function) (inst : Inst) (ls : List Line) :
    Prop where
  flows : inst.op.Fits opts f → ∀ b, (inst.op.isTerminator = false → b = []) → FlowsTo ls [] b
  fits : Balanced lineEffects ls → inst.op.Fits opts f
  known : ∀ l ∈ ls, l.isKnown

/-- An instruction that the verifier of LLVM accepts. -/
structure Inst.Checked (inst : Inst) : Prop where
  core : inst.op.isCore
  typed : inst.op.Typed
  result : inst.result.map Local.ty = inst.op.resultType

theorem known_lines (code : Code) : ∀ l ∈ lines code, l.isKnown := by
  intro l hl
  obtain ⟨i, -, rfl⟩ := List.mem_map.mp hl
  rfl

theorem known_printOperation {op : Operation} (hcore : op.isCore) {w w' : Writer}
    {ls : List Line} (hprint : printOperation opts f vaArgNum op w = some (ls, w')) :
    ∀ l ∈ ls, l.isKnown := by
  have hcode : ∀ {x : Emit Code}, (do return lines (← x) : Emit (List Line)) w = some (ls, w') →
      ∀ l ∈ ls, l.isKnown := by
    intro x hx
    obtain ⟨code, w₁, -, h₁⟩ := emit_bind_eq_some hx
    cases h₁
    exact known_lines code
  cases op with
  | ret v =>
      cases v with
      | none =>
          cases hprint
          exact List.forall_mem_cons.mpr ⟨rfl, by simp [Line.isKnown]⟩
      | some v =>
          obtain ⟨load, w₁, -, h₁⟩ := emit_bind_eq_some hprint
          cases h₁
          refine List.forall_mem_append.mpr ⟨known_lines _, ?_⟩
          rcases v.type.letter_cases with ⟨hletter | hletter, -⟩ | ⟨hletter | hletter, -⟩ <;>
          · rw [Ty.letter] at hletter
            rw [hletter]
            exact List.forall_mem_singleton.mpr rfl
  | call functionVal ty args =>
      obtain ⟨call, w₁, -, h₁⟩ := emit_bind_eq_some hprint
      obtain ⟨after, w₂, -, h₂⟩ := emit_bind_eq_some h₁
      cases h₂
      exact List.forall_mem_append.mpr ⟨List.forall_mem_append.mpr
        ⟨known_lines _, List.forall_mem_singleton.mpr rfl⟩, known_lines _⟩
  | arithmetic op left right => exact hcode hprint
  | cast op v ty => exact hcode hprint
  | cmp pred left right => exact hcode hprint
  | br inst => exact hcode hprint
  | select cond trueVal falseVal => exact hcode hprint
  | load address ty => exact hcode hprint
  | store address val => exact hcode hprint
  | getElementPtr v indices => exact hcode hprint
  | alloca ty arraySize => exact hcode hprint
  | _ => cases hcore

theorem emits_printInst (hphis : ∀ b, PhisTyped (f.branches.phis b)) {inst : Inst}
    (h : inst.Checked) :
    Emits (printInst opts f vaArgNum inst) (InstText opts f.branches inst) := by
  obtain ⟨result, op⟩ := inst
  obtain ⟨hcore, htyped, hresult⟩ := h
  simp only at hcore htyped hresult
  have hstore : EmitsCode (printResult opts result) True (op.resultType.toList.map Ty.category)
      [] := by
    have hprint := @emits_printResult opts result
    rw [← hresult]
    cases result <;> exact hprint
  intro w w' ls hw hprint
  obtain ⟨code, w₁, hcode, h₁⟩ := emit_bind_eq_some hprint
  obtain ⟨store, w₂, hprintStore, h₂⟩ := emit_bind_eq_some h₁
  cases h₂
  have hknown : ∀ l ∈ code ++ lines store, l.isKnown :=
    List.forall_mem_append.mpr ⟨known_printOperation hcore hcode, known_lines store⟩
  cases hterm : op.isTerminator with
  | true =>
      obtain ⟨hmoves, hjumps⟩ := emits_terminator hphis hcore hterm htyped hw hcode
      have hnone : op.resultType = none := by
        cases op <;> first | rfl | cases hterm
      obtain rfl : result = none := by
        rw [hnone] at hresult
        exact Option.map_eq_none_iff.mp hresult
      cases hprintStore
      rw [lines_nil, List.append_nil] at hknown ⊢
      exact ⟨hmoves, fun hfits b _ => hjumps.flows hfits b, hjumps.of_balanced, hknown⟩
  | false =>
      by_cases hdirect : ∃ g ty args, op = .call (.const (.function g)) ty args
      · obtain ⟨g, ty, args, rfl⟩ := hdirect
        obtain ⟨rfl, hargs⟩ := htyped
        obtain ⟨hmoves, hcall⟩ := emits_printCall_direct g.type hargs hw hcode
        obtain ⟨hmoves', hleaves⟩ := hstore (hmoves.lastOld hw) hprintStore
        refine ⟨hmoves.trans hmoves', fun hfits b hb => ?_, fun hb => ?_, hknown⟩
        · rw [hb hterm]
          exact (((hcall.goes hfits.2).append hleaves.goes).straight ⟨hfits.1, trivial⟩).flows
        · have hfits := hcall.callFits hleaves hb
          exact ⟨(((hcall.goes hfits).append hleaves.goes).of_balanced hb).1, hfits⟩
      · obtain ⟨hmoves, hop⟩ := emits_printOperation hcore hterm
          (fun g ty args heq => hdirect ⟨g, ty, args, heq⟩) htyped hw hcode
        obtain ⟨hmoves', hleaves⟩ := hstore (hmoves.lastOld hw) hprintStore
        have hall := (hop.append hleaves).goes
        refine ⟨hmoves.trans hmoves', fun hfits b hb => ?_, fun hb => (hall.of_balanced hb).1,
          hknown⟩
        rw [hb hterm]
        exact (hall.straight ⟨hfits, trivial⟩).flows

end insts

end Llxvm.Backend
