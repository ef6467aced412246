import Llxvm.Backend.Emission
import Llxvm.Backend.IndirectBranch

/-!
# What can be printed

A function is printed unless one of its instructions needs the number of a block that it does not
have, or cannot be printed at all.  The recursion over the loops ends, and all blocks are found.
-/

namespace Llxvm.Backend

open Llxvm.Jvm

/-! ## Code that is printed under a condition -/

/-- While the blocks have these numbers, which they keep, `x` prints exactly if `p` holds. -/
def PrintsIff {α : Type} (numbers : List (String × ℕ)) (x : Emit α) (p : Prop) : Prop :=
  ∀ w, w.basicblockMap = numbers → ((x w).isSome ↔ p) ∧
    ∀ a w', x w = some (a, w') → w'.basicblockMap = numbers

namespace PrintsIff

variable {α β : Type} {numbers : List (String × ℕ)} {x : Emit α} {g : α → Emit β} {p q : Prop}

theorem congr (h : PrintsIff numbers x p) (hpq : p ↔ q) : PrintsIff numbers x q := by
  rwa [propext hpq] at h

theorem pure (a : α) : PrintsIff numbers (pure a) True := by
  refine fun w hw => ⟨by simp [emit_pure], fun a' w' h => ?_⟩
  cases h
  exact hw

theorem unreachable : PrintsIff numbers (Backend.unreachable : Emit α) False :=
  fun w _ => ⟨by simp [Backend.unreachable], fun _ _ h => by cases h⟩

theorem bind (hx : PrintsIff numbers x p) (hg : ∀ a, PrintsIff numbers (g a) q) :
    PrintsIff numbers (x >>= g) (p ∧ q) := by
  intro w hw
  obtain ⟨hsome, hkeep⟩ := hx w hw
  rw [emit_bind]
  cases hxw : x w with
  | none => simp [← hsome, hxw]
  | some aw =>
      obtain ⟨a, w₁⟩ := aw
      obtain ⟨hsome', hkeep'⟩ := hg a w₁ (hkeep a w₁ hxw)
      rw [hxw] at hsome
      rw [Option.bind_some, hsome', ← hsome]
      exact ⟨by simp, hkeep'⟩

/-- What is done with the result does not matter. -/
theorem map (hx : PrintsIff numbers x p) (h : α → β) :
    PrintsIff numbers (x >>= fun a => Pure.pure (h a)) p :=
  (hx.bind fun a => pure (h a)).congr (iff_of_eq (and_true p))

/-- Everything that is printed first can be printed. -/
theorem after (hx : PrintsIff numbers x True) (hg : ∀ a, PrintsIff numbers (g a) p) :
    PrintsIff numbers (x >>= g) p :=
  (hx.bind hg).congr (iff_of_eq (true_and p))

theorem isSome_bind {w w₁ : Writer} {a : α} (hx : x w = some (a, w₁))
    (hw₁ : w₁.basicblockMap = numbers) (hg : PrintsIff numbers (g a) p) :
    ((x >>= g) w).isSome ↔ p := by
  rw [emit_bind, hx, Option.bind_some]
  exact (hg w₁ hw₁).1

/-- The state is read. -/
theorem read {g : Writer → Emit β}
    (hg : ∀ w, w.basicblockMap = numbers → PrintsIff numbers (g w) p) :
    PrintsIff numbers (get >>= g) p := by
  intro w hw
  simp only [emit_bind, emit_get, Option.bind_some]
  exact hg w hw w hw

theorem modifyGet {h : Writer → α × Writer} (hh : ∀ w, (h w).2.basicblockMap = w.basicblockMap) :
    PrintsIff numbers (modifyGet h) True := by
  refine fun w hw => ⟨iff_of_true rfl trivial, fun a w' heq => ?_⟩
  obtain rfl : (h w).2 = w' := congrArg Prod.snd (Option.some.inj heq)
  rw [hh, hw]

theorem set {w : Writer} (hw : w.basicblockMap = numbers) :
    PrintsIff numbers (set w : Emit PUnit) True := by
  refine fun _ _ => ⟨iff_of_true rfl trivial, fun a w' heq => ?_⟩
  cases heq
  exact hw

/-- A loop prints if all its steps do. -/
theorem forall_mem {γ : Type} (loop : List γ → Emit α) {P : γ → Prop} {cs : List γ}
    (hnil : PrintsIff numbers (loop []) True)
    (hcons : ∀ c ∈ cs, ∀ rest, PrintsIff numbers (loop rest) (∀ c ∈ rest, P c) →
      PrintsIff numbers (loop (c :: rest)) (P c ∧ ∀ c ∈ rest, P c)) :
    PrintsIff numbers (loop cs) (∀ c ∈ cs, P c) := by
  induction cs with
  | nil => exact hnil.congr (by simp)
  | cons c cs ih =>
      have ih := ih fun c' hc' => hcons c' (List.mem_cons_of_mem c hc')
      exact (hcons c List.mem_cons_self cs ih).congr List.forall_mem_cons.symm

end PrintsIff

section total

variable {numbers : List (String × ℕ)} {opts : GenerationOpts}

theorem printsIff_printLabel (l : Label) : PrintsIff numbers (printLabel l) True := by
  refine .read fun w hw => ?_
  split_ifs
  · exact .pure []
  · exact PrintsIff.after (.modifyGet fun _ => rfl) fun _ => .pure _

theorem printsIff_getLocalVarNumber (v : Local) :
    PrintsIff numbers (getLocalVarNumber v) True := by
  refine .read fun w hw => ?_
  cases w.localVars.lookup v.id with
  | some n => exact .pure n
  | none => exact PrintsIff.after (.set hw) fun _ => .pure _

theorem printsIff_printValueStore (v : Local) : PrintsIff numbers (printValueStore opts v) True :=
  (printsIff_getLocalVarNumber v).map _

theorem printsIff_getUID : PrintsIff numbers getUID True := .modifyGet fun _ => rfl

end total

/-! ## Values -/

/-- The number of a field is a constant integer; another index is loaded. -/
def GepIndexPrintable (loads : Prop) (ty : GepType) (index : Option Constant) : Prop :=
  match ty with
  | .struct _ => ∃ w i, index = some (.int w i)
  | .sequential _ => (∃ w i, index = some (.int w i)) ∨ loads

mutual

/-- The blocks whose addresses are taken are blocks of the function, and the fields of structs have
numbers. -/
def Constant.Printable (f : FunctionDef) : Constant → Prop
  | .blockAddress block => ∃ b ∈ f.blocks, b.name = block
  | .castExpr _ _ c => c.Printable f
  | .binaryExpr _ left right => left.Printable f ∧ right.Printable f
  | .cmpExpr _ left right => left.Printable f ∧ right.Printable f
  | .gepExpr base types indices => base.Printable f ∧ Constant.GepPrintable f types indices
  | .selectExpr cond trueVal falseVal =>
      cond.Printable f ∧ trueVal.Printable f ∧ falseVal.Printable f
  | _ => True

def Constant.GepPrintable (f : FunctionDef) : List GepType → List Constant → Prop
  | ty :: types, index :: indices =>
      GepIndexPrintable (index.Printable f) ty (some index) ∧
        Constant.GepPrintable f types indices
  | _, _ => True

end

def Value.Printable (f : FunctionDef) : Value → Prop
  | .const c => c.Printable f
  | .var _ => True

section values

variable {f : FunctionDef} {cur : ℕ} {opts : GenerationOpts}

theorem isSome_lookup_blockNumbers (start : ℕ) (name : String) :
    ((f.blockNumbers start).lookup name).isSome ↔ ∃ b ∈ f.blocks, b.name = name := by
  constructor
  · intro h
    obtain ⟨n, hn⟩ := Option.isSome_iff_exists.mp h
    obtain ⟨before, after, heq, -⟩ := List.lookup_eq_some_iff.mp hn
    have hmem : (name, n) ∈ f.blockNumbers start := heq ▸ List.mem_append_right before (by simp)
    rw [FunctionDef.blockNumbers, List.mem_reverse, List.mem_mapIdx] at hmem
    obtain ⟨i, hi, heq⟩ := hmem
    exact ⟨f.blocks[i], List.getElem_mem hi, congrArg Prod.fst heq⟩
  · intro h
    obtain ⟨i, b, -, -, -, hlookup, -⟩ := blockNumber_spec f start h
    rw [hlookup]
    rfl

theorem printsIff_blockAddress (block : String) :
    PrintsIff (f.blockNumbers cur) (printConstantLoad opts (.blockAddress block))
      (∃ b ∈ f.blocks, b.name = block) := by
  rw [printConstantLoad, ← isSome_lookup_blockNumbers cur]
  refine .read fun w hw => ?_
  rw [hw]
  cases (f.blockNumbers cur).lookup block with
  | none => exact PrintsIff.unreachable.congr (by simp)
  | some n => exact (PrintsIff.pure _).congr (by simp)

theorem printsIff_printGepIndex {dl : DataLayout} (ty : GepType) (index : Option Constant)
    {indexTy : Ty} {loadIndex : Emit Code} {p : Prop}
    (hload : PrintsIff (f.blockNumbers cur) loadIndex p) :
    PrintsIff (f.blockNumbers cur) (printGepIndex opts dl ty index indexTy loadIndex)
      (GepIndexPrintable p ty index) := by
  unfold printGepIndex GepIndexPrintable
  split
  · exact (PrintsIff.pure _).congr (by simp)
  · next hindex =>
      exact PrintsIff.unreachable.congr (iff_of_false id fun ⟨w, i, h⟩ => hindex w i h)
  · simp only
    split_ifs <;> exact (PrintsIff.pure _).congr (by simp)
  · next hindex =>
      exact (hload.map _).congr (or_iff_right fun ⟨w, i, h⟩ => hindex w i h).symm

theorem printsIff_binary {α : Type} {x y : Emit Code} {p q : Prop}
    (hx : PrintsIff (f.blockNumbers cur) x p) (hy : PrintsIff (f.blockNumbers cur) y q)
    (g : Code → Code → α) :
    PrintsIff (f.blockNumbers cur) (do
      let l ← x
      let r ← y
      return g l r) (p ∧ q) :=
  hx.bind fun l => hy.map (g l)

theorem printsIff_select {x y z : Emit Code} {p q r : Prop}
    (hx : PrintsIff (f.blockNumbers cur) x p) (hy : PrintsIff (f.blockNumbers cur) y q)
    (hz : PrintsIff (f.blockNumbers cur) z r) :
    PrintsIff (f.blockNumbers cur) (do
      let uid ← getUID
      let c ← x
      let t ← y
      let la ← printLabel (.select uid false)
      let e ← z
      let lb ← printLabel (.select uid true)
      return c ++ [.ifeq (.select uid false)] ++ t ++ [gotoToken opts (.select uid true)] ++ la ++
        e ++ lb) (p ∧ q ∧ r) :=
  printsIff_getUID.after fun _ => hx.bind fun _ => hy.bind fun _ =>
    (printsIff_printLabel _).after fun _ =>
      (hz.bind fun _ => (printsIff_printLabel _).map _).congr (iff_of_eq (and_true r))

mutual

theorem printsIff_printConstantLoad : ∀ c : Constant,
    PrintsIff (f.blockNumbers cur) (printConstantLoad opts c) (c.Printable f)
  | .blockAddress block => by
      rw [Constant.Printable]
      exact printsIff_blockAddress block
  | .castExpr op ty c => by
      rw [printConstantLoad, Constant.Printable]
      exact (printsIff_printConstantLoad c).map _
  | .binaryExpr op left right => by
      rw [printConstantLoad, Constant.Printable]
      exact printsIff_binary (printsIff_printConstantLoad left)
        (printsIff_printConstantLoad right) _
  | .cmpExpr pred left right => by
      rw [printConstantLoad, Constant.Printable]
      exact printsIff_binary (printsIff_printConstantLoad left)
        (printsIff_printConstantLoad right) _
  | .gepExpr base types indices => by
      rw [printConstantLoad, Constant.Printable]
      exact printsIff_binary (printsIff_printConstantLoad base)
        (printsIff_printConstantGep types indices) _
  | .selectExpr cond trueVal falseVal => by
      rw [printConstantLoad, Constant.Printable]
      exact printsIff_select (printsIff_printConstantLoad cond)
        (printsIff_printConstantLoad trueVal) (printsIff_printConstantLoad falseVal)
  | .null | .int _ _ | .float _ | .double _ | .undef _ | .aggregateZero _ | .function _
  | .globalVariable _ | .string _ | .dataArray _ _ | .aggregate _ _ => by
      rw [printConstantLoad, Constant.Printable]
      exact .pure _
      all_goals simp

theorem printsIff_printConstantGep : ∀ (types : List GepType) (indices : List Constant),
    PrintsIff (f.blockNumbers cur) (printConstantGep opts types indices)
      (Constant.GepPrintable f types indices)
  | [], _ => by
      rw [printConstantGep, Constant.GepPrintable]
      · exact .pure _
      all_goals simp
  | _ :: _, [] => by
      rw [printConstantGep, Constant.GepPrintable]
      · exact .pure _
      all_goals simp
  | ty :: types, index :: indices => by
      rw [printConstantGep, Constant.GepPrintable]
      exact printsIff_binary (printsIff_printGepIndex ty (some index)
        (printsIff_printConstantLoad index)) (printsIff_printConstantGep types indices) _

end

theorem printsIff_printValueLoad (v : Value) :
    PrintsIff (f.blockNumbers cur) (printValueLoad opts v) (v.Printable f) := by
  cases v with
  | const c => exact printsIff_printConstantLoad c
  | var v => exact (printsIff_getLocalVarNumber v).map _

end values

/-! ## Instructions -/

/-- Every PHI node has a value for the edge. -/
def PhisPrintable (f : FunctionDef) (src : ℕ) (phis : List Phi) : Prop :=
  ∀ p ∈ phis, ∃ v, p.getIncomingValueForBlock src = some v ∧ v.Printable f

def BranchInst.Printable (f : FunctionDef) : BranchInst → Prop
  | .unconditional src dest => PhisPrintable f src (f.branches.phis dest)
  | .conditional src cond t e => cond.Printable f ∧ PhisPrintable f src (f.branches.phis t) ∧
      PhisPrintable f src (f.branches.phis e)

def IntrinsicInst.Printable (f : FunctionDef) : IntrinsicInst → Prop
  | .math _ (_ :: first :: rest) => first.Printable f ∧ ∀ second ∈ rest.head?, second.Printable f
  | .math _ _ => False
  | inst => ∀ v ∈ inst.operands, v.Printable f

/-- A direct call pushes the parameters of the function, and packs the arguments behind them if it
is variadic. -/
def CallPrintable (f : FunctionDef) (functionVal : Value) (args : List Value) : Prop :=
  match functionVal with
  | .const (.function g) => (∀ v ∈ args.take g.type.params.length, v.Printable f) ∧
      (g.type.isVarArg = true → ∀ v ∈ args.drop g.type.params.length, v.Printable f)
  | functionVal => functionVal.Printable f ∧ ∀ v ∈ args, v.Printable f

def Operation.Printable (f : FunctionDef) : Operation → Prop
  | .br inst => inst.Printable f
  | .getElementPtr v indices => v.Printable f ∧
      ∀ i ∈ indices, GepIndexPrintable (i.2.Printable f) i.1 i.2.constant
  | .call functionVal _ args => CallPrintable f functionVal args
  | .intrinsic inst => inst.Printable f
  | .indirectBr _ destinations => ∀ name ∈ destinations, ∃ b ∈ f.blocks, b.name = name
  | .invoke => False
  | op => ∀ v ∈ op.operands, v.Printable f

section instructions

variable {f : FunctionDef} {cur : ℕ} {opts : GenerationOpts} {vaArgNum : ℕ}

theorem printsIff_printPHICopies (src : ℕ) (phis : List Phi) :
    PrintsIff (f.blockNumbers cur) (printPHICopies opts src phis) (PhisPrintable f src phis) := by
  refine PrintsIff.forall_mem (printPHICopies opts src) (.pure _) fun p _ phis ih => ?_
  unfold printPHICopies
  cases hv : p.getIncomingValueForBlock src with
  | none => exact PrintsIff.unreachable.congr (by simp)
  | some v =>
      simp only
      split_ifs with hundef
      · -- an `undef` is not copied, and it can be printed
        have hprintable : v.Printable f := by
          unfold Value.isUndef at hundef
          split at hundef
          · simp [Value.Printable, Constant.Printable]
          · cases hundef
        exact ih.congr (by simp [hprintable])
      · exact ((printsIff_printValueLoad v).bind fun _ => (printsIff_printValueStore _).after
          fun _ => ih.map _).congr (by simp)

theorem printsIff_printIfne (target : Label) :
    PrintsIff (f.blockNumbers cur) (printIfne opts target) True := by
  unfold printIfne
  split_ifs
  · exact .read fun w hw => PrintsIff.after (.set hw) fun _ => .pure _
  · exact .pure _

theorem printsIff_printBranch (src dest : ℕ) :
    PrintsIff (f.blockNumbers cur) (printBranch opts f.branches src dest)
      (PhisPrintable f src (f.branches.phis dest)) :=
  (printsIff_printPHICopies src _).map _

theorem printsIff_printBranchInstruction (inst : BranchInst) :
    PrintsIff (f.blockNumbers cur) (printBranchInstruction opts f.branches inst)
      (inst.Printable f) := by
  cases inst with
  | unconditional src dest => exact printsIff_printBranch src dest
  | conditional src cond t e =>
      refine (printsIff_printValueLoad cond).bind fun load => PrintsIff.map ?_ _
      unfold printBranchIf
      simp only
      by_cases hsame : t = e
      · subst hsame
        rw [if_pos rfl]
        exact ((printsIff_printBranch src t).map _).congr and_self_iff.symm
      · have hlabel : PrintsIff (f.blockNumbers cur) (trueLabel f.branches t) True := by
          unfold trueLabel
          split_ifs
          · exact .pure _
          · exact printsIff_getUID.map _
        have hcopies : PrintsIff (f.blockNumbers cur) (printFalseCopies opts f.branches src e)
            (PhisPrintable f src (f.branches.phis e)) := by
          unfold printFalseCopies
          split_ifs with hempty
          · rw [List.isEmpty_iff.mp hempty]
            exact (PrintsIff.pure _).congr (by simp [PhisPrintable])
          · exact printsIff_printPHICopies src _
        rw [if_neg hsame]
        refine hlabel.after fun label => (printsIff_printIfne label).after fun br => ?_
        split_ifs with hempty
        · rw [List.isEmpty_iff.mp hempty]
          exact (hcopies.map _).congr (by simp [PhisPrintable])
        · exact (hcopies.bind fun _ => (printsIff_printLabel _).after fun _ =>
            (printsIff_printPHICopies src _).map _).congr and_comm

theorem printsIff_printArguments (args : List Value) :
    PrintsIff (f.blockNumbers cur) (printArguments opts args) (∀ v ∈ args, v.Printable f) :=
  PrintsIff.forall_mem (printArguments opts) (.pure _)
    fun v _ _ ih => printsIff_binary (printsIff_printValueLoad v) ih _

theorem printsIff_printOperandPack (args : List Value) :
    PrintsIff (f.blockNumbers cur) (printOperandPack opts args) (∀ v ∈ args, v.Printable f) :=
  PrintsIff.map (PrintsIff.forall_mem (printPackCalls opts) (.pure _)
    fun v _ _ ih => printsIff_binary (printsIff_printValueLoad v) ih _) _

theorem printsIff_printCall (functionVal : Value) (ty : FunctionType) (args : List Value) :
    PrintsIff (f.blockNumbers cur) (printCall opts functionVal ty args)
      (CallPrintable f functionVal args) := by
  have hsetjmp : ∀ isSetjmp, PrintsIff (f.blockNumbers cur) (printSetjmp isSetjmp) True := by
    intro isSetjmp
    unfold printSetjmp
    split_ifs
    · exact .read fun w hw => PrintsIff.after (.set hw) fun _ => (printsIff_printLabel _).map _
    · exact .pure _
  suffices hcall : PrintsIff (f.blockNumbers cur) (printFunctionCall opts functionVal ty args)
      (CallPrintable f functionVal args) from
    (hcall.bind fun _ => (hsetjmp _).map _).congr (iff_of_eq (and_true _))
  have hindirect : PrintsIff (f.blockNumbers cur) (do
      let load ← printValueLoad opts functionVal
      let packed ← printOperandPack opts args
      return (⟨load ++ packed, .invoke (getCallSignature ty).2⟩ : CallCode))
      (functionVal.Printable f ∧ ∀ v ∈ args, v.Printable f) :=
    printsIff_binary (printsIff_printValueLoad functionVal) (printsIff_printOperandPack args) _
  cases functionVal with
  | var v => exact hindirect
  | const c =>
      cases c with
      | function g =>
          refine (printsIff_printArguments _).bind fun fixed => PrintsIff.map ?_ _
          unfold printVariadic
          split_ifs with hvararg
          · exact (printsIff_printOperandPack _).congr (by simp [hvararg])
          · exact (PrintsIff.pure _).congr (by simp [hvararg])
      | _ => exact hindirect

theorem printsIff_none {α : Type} (a : α) :
    PrintsIff (f.blockNumbers cur) (pure a) (∀ u ∈ ([] : List Value), u.Printable f) :=
  (PrintsIff.pure a).congr (by simp)

theorem printsIff_one {α : Type} (v : Value) (g : Code → α) :
    PrintsIff (f.blockNumbers cur) (do return g (← printValueLoad opts v))
      (∀ u ∈ [v], u.Printable f) :=
  ((printsIff_printValueLoad v).map g).congr (by simp)

theorem printsIff_two {α : Type} (left right : Value) (g : Code → Code → α) :
    PrintsIff (f.blockNumbers cur) (do
      let l ← printValueLoad opts left
      let r ← printValueLoad opts right
      return g l r) (∀ u ∈ [left, right], u.Printable f) :=
  (printsIff_binary (printsIff_printValueLoad left) (printsIff_printValueLoad right) g).congr
    (by simp)

theorem printsIff_printMathIntrinsic (fn : MathFunction) (operands : List Value) :
    PrintsIff (f.blockNumbers cur) (printMathIntrinsic opts fn operands)
      ((IntrinsicInst.math fn operands).Printable f) := by
  unfold printMathIntrinsic IntrinsicInst.Printable
  split
  · next first rest =>
      refine ((printsIff_printValueLoad first).map _).bind fun _ => PrintsIff.map ?_ _
      cases rest with
      | nil => exact (PrintsIff.pure _).congr (by simp)
      | cons second _ => exact ((printsIff_printValueLoad second).map _).congr (by simp)
  · next hoperands =>
      refine PrintsIff.unreachable.congr ?_
      split
      · next h => exact (hoperands _ _ _ (by injection h)).elim
      · rfl
      · next h => exact (h _ _ rfl).elim

theorem printsIff_printIntrinsicCall (inst : IntrinsicInst) :
    PrintsIff (f.blockNumbers cur) (printIntrinsicCall opts vaArgNum inst) (inst.Printable f) := by
  cases inst with
  | vaStart list => exact printsIff_one list _
  | vaCopy dest src => exact printsIff_two dest src _
  | mem op dest source length w last =>
      exact ((printsIff_printValueLoad dest).bind fun _ => printsIff_two source length _).congr
        List.forall_mem_cons.symm
  | math fn operands => exact printsIff_printMathIntrinsic fn operands
  | bswap ty parameter => exact printsIff_one (.var parameter) _
  | smax left right => exact printsIff_two left right _
  | vaEnd | fltRounds | ignored | smulWithOverflow => exact printsIff_none _

theorem printsIff_printIndirectBr (hblocks : f.firstNamed.isSome) (address : Local)
    (destinations : List String) :
    PrintsIff (f.blockNumbers cur) (printIndirectBr opts f address destinations)
      (∀ name ∈ destinations, ∃ b ∈ f.blocks, b.name = name) := by
  have hcases : PrintsIff (f.blockNumbers cur) (indirectCases f destinations)
      (∀ name ∈ destinations, ∃ b ∈ f.blocks, b.name = name) := by
    refine PrintsIff.forall_mem (indirectCases f) (.pure _) fun name _ names ih => ?_
    refine .read fun w hw => ?_
    by_cases hname : ∃ b ∈ f.blocks, b.name = name
    · obtain ⟨i, b, -, -, -, hlookup, hnamed⟩ := blockNumber_spec f cur hname
      rw [hw, hlookup, hnamed]
      exact (ih.map _).congr (by simp only [hname, true_and])
    · have hlookup := mt (isSome_lookup_blockNumbers cur name).mp hname
      rw [hw, Option.not_isSome_iff_eq_none.mp hlookup]
      exact PrintsIff.unreachable.congr (by simp only [hname, false_and])
  obtain ⟨first, hfirst⟩ := Option.isSome_iff_exists.mp hblocks
  refine (printsIff_getLocalVarNumber address).after fun n => (hcases.bind fun cases => ?_).congr
    (iff_of_eq (and_true _))
  rw [hfirst]
  exact .pure _

theorem printsIff_printAllocaInstruction (ty : Ty) (arraySize : Value) :
    PrintsIff (f.blockNumbers cur) (printAllocaInstruction opts ty arraySize)
      (∀ u ∈ [arraySize], u.Printable f) := by
  unfold printAllocaInstruction
  simp only
  split
  · exact (PrintsIff.pure _).congr (by simp [Value.Printable, Constant.Printable])
  · exact printsIff_one arraySize _

theorem printsIff_printGepInstruction (v : Value) (indices : List (GepType × Value)) :
    PrintsIff (f.blockNumbers cur) (printGepInstruction opts v indices)
      ((Operation.getElementPtr v indices).Printable f) :=
  printsIff_binary ((printsIff_printValueLoad v).map _)
    (PrintsIff.forall_mem (printGepIndices opts) (.pure _) fun i _ _ ih => printsIff_binary
      (printsIff_printGepIndex i.1 i.2.constant (printsIff_printValueLoad i.2)) ih _) _

theorem printsIff_printOperation (hblocks : f.firstNamed.isSome) (op : Operation) :
    PrintsIff (f.blockNumbers cur) (printOperation opts f vaArgNum op) (op.Printable f) := by
  cases op with
  | ret v =>
      cases v with
      | none => exact printsIff_none _
      | some v => exact printsIff_one v _
  | unreachable | switch _ _ => exact printsIff_none _
  | arithmetic op left right => exact (printsIff_two left right _).map _
  | fneg v => exact printsIff_one v _
  | cast op v ty => exact (printsIff_one v _).map _
  | cmp pred left right => exact (printsIff_two left right _).map _
  | br inst => exact (printsIff_printBranchInstruction inst).map _
  | select cond trueVal falseVal =>
      exact ((printsIff_select (printsIff_printValueLoad cond) (printsIff_printValueLoad trueVal)
        (printsIff_printValueLoad falseVal)).map _).congr (by
          simp [Operation.Printable, Operation.operands])
  | load address ty => exact (printsIff_one address _).map _
  | store address val => exact (printsIff_two address val _).map _
  | getElementPtr v indices => exact (printsIff_printGepInstruction v indices).map _
  | call functionVal ty args => exact printsIff_printCall functionVal ty args
  | intrinsic inst => exact printsIff_printIntrinsicCall inst
  | alloca ty arraySize => exact (printsIff_printAllocaInstruction ty arraySize).map _
  | vaArg list ty =>
      exact ((printsIff_binary (printsIff_one list _) (printsIff_printValueLoad list) _).map
        _).congr (by simp [Operation.Printable, Operation.operands])
  | indirectBr address destinations => exact printsIff_printIndirectBr hblocks address destinations
  | invoke => exact .unreachable

theorem printsIff_printInst (hblocks : f.firstNamed.isSome) (inst : Inst) :
    PrintsIff (f.blockNumbers cur) (printInst opts f vaArgNum inst) (inst.op.Printable f) := by
  refine ((printsIff_printOperation hblocks inst.op).bind fun _ => PrintsIff.map ?_ _).congr
    (iff_of_eq (and_true _))
  cases inst.result with
  | none => exact .pure _
  | some v => exact printsIff_printValueStore v

end instructions

/-! ## Functions -/

section function

variable {f : FunctionDef} {cur : ℕ} {opts : GenerationOpts} {vaArgNum : ℕ}

/-- All instructions of a block can be printed. -/
def FunctionDef.BlockPrintable (f : FunctionDef) (id : ℕ) : Prop :=
  ∀ inst ∈ f.insts id, inst.op.Printable f

/-- The smallest name is that of a block. -/
theorem firstNamed_isSome {b : BasicBlock} (hb : b ∈ f.blocks) : f.firstNamed.isSome := by
  have hmin : ∀ (names : List String) (name : String), names.foldl min name ∈ name :: names := by
    intro names
    induction names with
    | nil => simp
    | cons name' names ih =>
        intro name
        rw [List.foldl_cons]
        rcases List.mem_cons.mp (ih (min name name')) with h | h
        · rw [h]
          rcases min_choice name name' with h | h <;> simp [h]
        · simp [h]
  unfold FunctionDef.firstNamed
  split
  · next hnil => simp [hnil] at hb
  · next first rest heq =>
      have hmem := hmin (rest.map BasicBlock.name) first.name
      rw [← List.map_cons (f := BasicBlock.name), ← heq] at hmem
      obtain ⟨b, hb, hname⟩ := List.mem_map.mp hmem
      obtain ⟨-, b', -, -, -, -, hnamed⟩ := blockNumber_spec f 0 ⟨b, hb, hname⟩
      rw [hnamed]
      rfl

section body

variable (hf : f.WellFormed)

include hf

theorem printsIff_printBasicBlock {b : BasicBlock} (hb : b ∈ f.blocks) :
    PrintsIff (f.blockNumbers cur) (printBasicBlock opts f vaArgNum b) (f.BlockPrintable b.id) := by
  have hinsts : PrintsIff (f.blockNumbers cur) (printInsts opts f vaArgNum b.insts)
      (∀ inst ∈ b.insts, inst.op.Printable f) :=
    PrintsIff.forall_mem (printInsts opts f vaArgNum) (.pure _) fun inst _ rest ih =>
      (printsIff_printInst (firstNamed_isSome hb) inst).bind fun _ => ih.map _
  rw [FunctionDef.BlockPrintable, FunctionDef.insts, hf.block_eq hb]
  exact (printsIff_printLabel _).after fun _ => hinsts.map _

/-- By induction on the bound: a loop has more blocks than the loops in it, so that the bound is not
reached before the innermost one. -/
theorem printsIff_printLoop {n l : ℕ} (hl : f.loopInfo.IsLoop l)
    (hn : (f.loopInfo.blocks l).length ≤ n) :
    PrintsIff (f.blockNumbers cur) (printLoop opts f vaArgNum n l)
      (∀ b ∈ f.loopInfo.loopOrder n l, f.BlockPrintable b) := by
  induction n generalizing l with
  | zero =>
      obtain ⟨rest, hblocks⟩ := hf.loops.blocks_eq l hl
      simp [hblocks] at hn
  | succ n ih =>
      have hblock : ∀ b ∈ f.loopInfo.blocks l, PrintsIff (f.blockNumbers cur)
          (printLoopBlock opts f vaArgNum (printLoop opts f vaArgNum n) l b)
          (∀ b' ∈ f.loopInfo.blockOrder (f.loopInfo.loopOrder n) l b, f.BlockPrintable b') := by
        intro b hb
        obtain ⟨block, hmem, rfl⟩ := List.mem_map.mp (hf.loops.blocks_subset hl hb)
        obtain ⟨m, hm, -⟩ := (hf.loops.mem_blocks l hl block.id).mp hb
        unfold printLoopBlock LoopInfo.blockOrder
        rw [hf.block_eq hmem, hm]
        simp only
        split_ifs with hsame hchild
        · exact ((printsIff_printBasicBlock hf hmem).map _).congr (by simp)
        · have hlt := hf.loops.length_lt (.of_loopFor hm) hchild.2.symm
          exact ih (.of_loopFor hm) (by omega)
        · exact (PrintsIff.pure _).congr (by simp)
      have hblocks := PrintsIff.forall_mem
        (printLoopBlocks opts f vaArgNum (printLoop opts f vaArgNum n) l) (.pure _)
        fun b hb rest ih => (hblock b hb).bind fun _ => ih.map _
      refine (printsIff_printLabel _).after fun _ => (hblocks.map _).congr ?_
      rw [LoopInfo.loopOrder, List.forall_mem_flatMap]

theorem printsIff_printFunctionBody :
    PrintsIff (f.blockNumbers cur) (printFunctionBody opts f vaArgNum)
      (∀ b ∈ f.blocks, f.BlockPrintable b.id) := by
  have hblock : ∀ b ∈ f.blocks, PrintsIff (f.blockNumbers cur) (printBodyBlock opts f vaArgNum b)
      (∀ b' ∈ f.loopInfo.topOrder f.blocks.length b.id, f.BlockPrintable b') := by
    intro b hb
    unfold printBodyBlock LoopInfo.topOrder
    cases hm : f.loopInfo.loopFor b.id with
    | none => exact ((printsIff_printBasicBlock hf hb).map _).congr (by simp)
    | some l =>
        have hl : f.loopInfo.IsLoop l := .of_loopFor hm
        have hlength := (List.subperm_of_subset (hf.loops.nodup l hl)
          (hf.loops.blocks_subset hl)).length_le
        rw [List.length_map] at hlength
        simp only
        split_ifs
        · exact printsIff_printLoop hf hl hlength
        · exact (PrintsIff.pure _).congr (by simp)
  have hblocks := PrintsIff.forall_mem (printBodyBlocks opts f vaArgNum) (.pure _)
    fun b hb rest ih => (hblock b hb).bind fun _ => ih.map _
  -- each block comes once in the order of the loops
  have hperm := hf.loops.bodyOrder_perm hf.ids
  refine hblocks.congr ?_
  calc (∀ b ∈ f.blocks, ∀ b' ∈ f.loopInfo.topOrder f.blocks.length b.id, f.BlockPrintable b') ↔
      ∀ b ∈ f.loopInfo.bodyOrder (f.blocks.map BasicBlock.id), f.BlockPrintable b := by
        rw [LoopInfo.bodyOrder, List.forall_mem_flatMap, List.forall_mem_map, List.length_map]
    _ ↔ ∀ b ∈ f.blocks.map BasicBlock.id, f.BlockPrintable b := by simp only [hperm.mem_iff]
    _ ↔ ∀ b ∈ f.blocks, f.BlockPrintable b.id := List.forall_mem_map

end body

theorem printsIff_printBlockVariables (skip : Bool) (bs : List BasicBlock) :
    PrintsIff (f.blockNumbers cur) (printBlockVariables opts skip bs) True := by
  have hlocals : ∀ vars,
      PrintsIff (f.blockNumbers cur) (printLocalVariables opts skip vars) True := by
    intro vars
    induction vars with
    | nil => exact .pure _
    | cons v vars ih =>
        exact ((printsIff_getLocalVarNumber v).map _).after fun _ => ih.map _
  have hswap : ∀ p, PrintsIff (f.blockNumbers cur) (printSwapParameter opts p) True := by
    intro p
    cases p with
    | none => exact .pure _
    | some p => exact (printsIff_getLocalVarNumber p.2).map _
  have hinsts : ∀ insts,
      PrintsIff (f.blockNumbers cur) (printInstVariables opts skip insts) True := by
    intro insts
    induction insts with
    | nil => exact .pure _
    | cons inst insts ih =>
        exact (hlocals _).after fun _ => (hswap _).after fun _ => ih.map _
  induction bs with
  | nil => exact .pure _
  | cons b bs ih => exact (hlocals _).after fun _ => (hinsts _).after fun _ => ih.map _

theorem printsIff_allocateLocals (vars : List Local) :
    PrintsIff (f.blockNumbers cur) (allocateLocals vars) True := by
  induction vars with
  | nil => exact .pure ()
  | cons v vars ih => exact (printsIff_getLocalVarNumber v).after fun _ => ih

theorem printsIff_printCatchJump (numJumps : ℕ) :
    PrintsIff (f.blockNumbers cur) (printCatchJump numJumps) True := by
  unfold printCatchJump
  split_ifs
  · exact .pure _
  · exact .read fun w hw => PrintsIff.after (.set hw) fun _ => (printsIff_printLabel _).map _

/-- A function is printed exactly if all its instructions can be printed: neither does the recursion
over the loops stop at its bound, nor is there a block that is not found. -/
theorem isSome_printFunction_iff (hf : f.WellFormed) (skip : Bool) (maxOperands : ℕ) (w : Writer) :
    (printFunction opts skip f cur maxOperands w).isSome ↔
      ∀ b ∈ f.blocks, ∀ inst ∈ b.insts, inst.op.Printable f := by
  have hbody : (∀ b ∈ f.blocks, f.BlockPrintable b.id) ↔
      ∀ b ∈ f.blocks, ∀ inst ∈ b.insts, inst.op.Printable f := by
    refine forall₂_congr fun b hb => ?_
    rw [FunctionDef.BlockPrintable, FunctionDef.insts, hf.block_eq hb]
    rfl
  have hstart : startFunction f cur w = some ((), { w with
      localVars := [], basicblockMap := f.blockNumbers cur, usedRegisters := 0 }) := rfl
  rw [← hbody]
  refine PrintsIff.isSome_bind hstart rfl ?_
  refine (printsIff_allocateLocals f.args).after fun _ =>
    (PrintsIff.modifyGet fun w => by split_ifs <;> rfl).after fun vaArgNum =>
      (printsIff_printBlockVariables skip f.blocks).after fun init => .read fun w₁ _ =>
        (printsIff_printLabel .beginMethod).after fun begin_method =>
          ((printsIff_printFunctionBody hf).bind fun body => ?_).congr (iff_of_eq (and_true _))
  exact (printsIff_printCatchJump f.numJumps).after fun handler => .read fun w₂ _ =>
    (printsIff_printLabel .endMethod).map _

end function

theorem printFunction_printable_nested :
    (printFunction plainOpts false (nestedFunction [asmInst]) 0 2 .start).isSome :=
  (isSome_printFunction_iff (nestedFunction_wellFormed (.inr rfl)) false 2 .start).mpr (by
    simp [nestedFunction, asmInst, setjmpInst, Operation.Printable, BranchInst.Printable,
      PhisPrintable, CallPrintable, Operation.operands, Value.Printable, FunctionDef.branches,
      FunctionDef.block, Phi.getIncomingValueForBlock, List.lookup])

end Llxvm.Backend
