import Llxvm.Backend.Phi

/-!
# Branches

`jvm_branch.cpp`.  The copies for the PHI nodes of a block are printed before each branch
to it; a conditional branch to a block with PHI nodes goes to copies of its own first.
-/

namespace Llxvm.Backend

open Llxvm.Jvm Llxvm.Runtime

/-- What the branches of a function depend on: its arguments and instructions, and the PHI
nodes at the beginning of each block. -/
structure Function where
  vars : List Local
  phis : ℕ → List Phi

inductive BranchInst where
  | unconditional (parent dest : ℕ)
  | conditional (parent : ℕ) (cond : Value) (trueBlock falseBlock : ℕ)

/-! ## Printing -/

section print

variable (opts : GenerationOpts) (f : Function)

def printPHICopy (src dest : ℕ) : Emit Code := printPHICopies opts src (f.phis dest)

/-- `printBranchInstruction(curBlock, destBlock)`. -/
def printBranch (curBlock destBlock : ℕ) : Emit Code := do
  let copies ← printPHICopy opts f curBlock destBlock
  return copies ++ [gotoToken opts (.block destBlock)]

/-- `rewriteBranch("ifne", label)`; its new label does not pass through `printLabel`. -/
def rewriteBranch (target : Label) : Emit Code := do
  let w ← get
  set { w with curRewriteBrLblId := w.curRewriteBrLblId + 1 }
  return [.ifeq (.br w.curRewriteBrLblId), .goto true target, .label (.br w.curRewriteBrLblId)]

def printIfne (target : Label) : Emit Code :=
  if opts.rewriteBranches then rewriteBranch target else return [.ifne target]

/-- The label that the copies for the true block stand behind, if it has any. -/
def trueLabel (trueBlock : ℕ) : Emit Label :=
  if (f.phis trueBlock).isEmpty then return .block trueBlock
  else do
    let uid ← getUID
    return .phi trueBlock uid

/-- The copies for the false block, if it has any. -/
def printFalseCopies (curBlock falseBlock : ℕ) : Emit Code :=
  if (f.phis falseBlock).isEmpty then return [] else printPHICopy opts f curBlock falseBlock

/-- `printBranchInstruction(curBlock, trueBlock, falseBlock)`. -/
def printBranchIf (curBlock trueBlock : ℕ) (falseBlock : Option ℕ) : Emit Code :=
  match falseBlock with
  | none => do
      let copies ← printPHICopy opts f curBlock trueBlock
      let br ← printIfne opts (.block trueBlock)
      return copies ++ br
  | some falseBlock =>
      if trueBlock = falseBlock then do
        let br ← printBranch opts f curBlock trueBlock
        return .pop :: br
      else do
        let labelname ← trueLabel f trueBlock
        let br ← printIfne opts labelname
        let copies ← printFalseCopies opts f curBlock falseBlock
        if (f.phis trueBlock).isEmpty then
          return br ++ copies ++ [gotoToken opts (.block falseBlock)]
        else do
          let label ← printLabel labelname
          let trueCopies ← printPHICopy opts f curBlock trueBlock
          return br ++ copies ++ [gotoToken opts (.block falseBlock)] ++ label ++ trueCopies ++
            [gotoToken opts (.block trueBlock)]

def printBranchInstruction : BranchInst → Emit Code
  | .unconditional parent dest => printBranch opts f parent dest
  | .conditional parent cond trueBlock falseBlock => do
      let load ← printValueLoad opts cond
      let br ← printBranchIf opts f parent trueBlock (some falseBlock)
      return load ++ br

end print

/-- What the LLVM verifier checks of PHI nodes. -/
structure Function.WellFormed (f : Function) : Prop where
  ids : ∀ u ∈ f.vars, ∀ v ∈ f.vars, u.id = v.id → u = v
  result_mem : ∀ b, ∀ p ∈ f.phis b, p.result ∈ f.vars
  results : ∀ b, ((f.phis b).map (·.result.id)).Nodup
  incoming : ∀ b, ∀ p ∈ f.phis b, ∀ src v, p.getIncomingValueForBlock src = some v →
    v.In f.vars ∧ v.type = p.result.ty

/-- The block that a branch goes to. -/
def Takes (env : Env) (opts : GenerationOpts) (w : Writer) (c : Config) : BranchInst → ℕ → Prop
  | .unconditional _ dest, s => s = dest
  | .conditional _ cond trueBlock falseBlock, s =>
      ∃ b, Loads env opts w cond c (.int b) ∧ s = if b = 0#32 then falseBlock else trueBlock

def BranchInst.parent : BranchInst → ℕ
  | .unconditional parent _ => parent
  | .conditional parent _ _ _ => parent

/-! ## The code of an edge -/

section branch

variable {env : Env} {opts : GenerationOpts} {f : Function}

/-- A branch behind copies leaves the code, unless a copy fails. -/
theorem run_edge {copies rest : Code} {s : ℕ} {c : Config} {P : Config → Prop}
    (hrun : (∃ c', run env copies none c = .fall c') ∨ Aborts (run env copies none c))
    (hrest : .label (.block s) ∉ rest) :
    (∃ c', run env (copies ++ ([gotoToken opts (.block s)] ++ rest)) none c = .jump (.block s) c' ∧
      P c') ↔ ∃ c', run env copies none c = .fall c' ∧ P c' := by
  have hjump : ∀ c' : Config, run env ([gotoToken opts (.block s)] ++ rest) none c' =
      .jump (.block s) c' := fun c' => run_skip hrest c'
  rcases hrun with ⟨c', hfall⟩ | habort
  · rw [run_append_of_fall hfall, hjump, hfall]
    simp
  · have habort' : Aborts (run env (copies ++ ([gotoToken opts (.block s)] ++ rest)) none c) := by
      rw [run_append]
      exact aborts_andThen habort _
    constructor
    · rintro ⟨c', heq, -⟩
      rw [heq] at habort'
      cases habort'
    · rintro ⟨c', heq, -⟩
      rw [heq] at habort
      cases habort

theorem printIfne_eq (env : Env) (opts : GenerationOpts) (target : Label) (w : Writer) :
    ∃ br w', printIfne opts target w = some (br, w') ∧
    w'.localVars = w.localVars ∧ w'.basicblockMap = w.basicblockMap ∧ w'.uid = w.uid ∧
    w'.lastLabel = w.lastLabel ∧
    ∀ c : Config, run env br none (c.push (.int 0#32)) = .fall c ∧
      ∀ b, b ≠ 0#32 → (∀ id, target ≠ .br id) →
        run env br none (c.push (.int b)) = .jump target c := by
  unfold printIfne
  split_ifs with h
  · refine ⟨_, _, rfl, rfl, rfl, rfl, rfl, fun c => ⟨by simp [run, step, Config.push], ?_⟩⟩
    intro b hb htarget
    simp [run, step, Config.push, hb, Ne.symm (htarget _)]
  · refine ⟨_, _, rfl, rfl, rfl, rfl, rfl, fun c => ⟨by simp [run, step, Config.push], ?_⟩⟩
    intro b hb _
    simp [run, step, Config.push, hb]

theorem Function.WellFormed.phis (h : f.WellFormed) (src s : ℕ) :
    PhisWellFormed f.vars src (f.phis s) where
  result_mem := h.result_mem s
  incoming := fun p hp v => h.incoming s p hp src v

section edge

variable (env) (hf : f.WellFormed) {w w₀ : Writer} {c : Config} (hw : w.Fresh) (hw₀ : w₀.Fresh)
  (hvars : w.localVars = w₀.localVars) (hblocks : w.basicblockMap = w₀.basicblockMap)
  (hs : Slots w₀ f.vars) (hv : Valuation w₀ f.vars c.locals)

include hf hw hw₀ hvars hblocks hs hv

/-- The copies of an edge followed by the branch, in the middle of other code. -/
theorem run_printPHICopy {src s : ℕ} {copies : Code} {w' : Writer}
    (hprint : printPHICopy opts f src s w = some (copies, w')) {rest : Code}
    (hrest : .label (.block s) ∉ rest) :
    Emitted w w' copies ∧
      ((∃ c', run env (copies ++ ([gotoToken opts (.block s)] ++ rest)) none c =
          .jump (.block s) c' ∧ AssignedAtOnce env opts w₀ src (f.phis s) c c') ↔
        Sequenced env opts w₀ src (f.phis s) c) := by
  obtain ⟨hemit, hgood, hbad⟩ :=
    run_printPHICopies env hf.ids (hf.phis src s) hprint hw hvars hblocks hs hv
  have hrun : (∃ c', run env copies none c = .fall c') ∨ Aborts (run env copies none c) := by
    by_cases h : ∀ p ∈ f.phis s, ∀ v, p.copied src = some v → v.Good env opts w₀.basicblockMap
    · obtain ⟨c', hfall, -⟩ := hgood h
      exact .inl ⟨c', hfall⟩
    · exact .inr (hbad h)
  refine ⟨hemit, (run_edge hrun hrest).trans ?_⟩
  exact printPHICopies_iff hf.ids (hf.phis src s) (hf.results s) hprint hw hw₀ hvars hblocks hs hv

end edge

theorem assignedAtOnce_nil (w : Writer) (src : ℕ) (c : Config) :
    AssignedAtOnce env opts w src [] c c ∧ Sequenced env opts w src [] c :=
  ⟨⟨by simp, fun _ _ => rfl, rfl, rfl⟩, ⟨by simp, List.Pairwise.nil⟩⟩

theorem printFalseCopies_eq (src s : ℕ) :
    printFalseCopies opts f src s = printPHICopy opts f src s := by
  unfold printFalseCopies
  split_ifs with hnil
  · rw [printPHICopy, List.isEmpty_iff.mp hnil]
    rfl
  · rfl

theorem trueLabel_eq (f : Function) (s : ℕ) (w : Writer) :
    (f.phis s = [] ∧ trueLabel f s w = some (.block s, w)) ∨
      (f.phis s ≠ [] ∧
        trueLabel f s w = some (.phi s (w.uid + 1), { w with uid := w.uid + 1 })) := by
  unfold trueLabel
  cases hphis : f.phis s with
  | nil => exact .inl ⟨rfl, rfl⟩
  | cons p ps => exact .inr ⟨by simp, rfl⟩

section conditional

variable (hf : f.WellFormed) {w w₀ : Writer} {c : Config} (hw : w.Fresh) (hw₀ : w₀.Fresh)
  (hvars : w.localVars = w₀.localVars) (hblocks : w.basicblockMap = w₀.basicblockMap)
  (hs : Slots w₀ f.vars) (hv : Valuation w₀ f.vars c.locals)

include hf hw hw₀ hvars hblocks hs hv

theorem run_printBranch {src s : ℕ} {is : Code} {w' : Writer}
    (hprint : printBranch opts f src s w = some (is, w')) :
    (∃ c', run env is none c = .jump (.block s) c' ∧
      AssignedAtOnce env opts w₀ src (f.phis s) c c') ↔
        Sequenced env opts w₀ src (f.phis s) c := by
  obtain ⟨copies, w₁, hcopies, hprint⟩ := emit_bind_eq_some hprint
  cases hprint
  exact (run_printPHICopy env hf hw hw₀ hvars hblocks hs hv hcopies List.not_mem_nil).2

theorem run_printBranchIf {src t e : ℕ} {is : Code} {w' : Writer} (b : BitVec 32)
    (hprint : printBranchIf opts f src t (some e) w = some (is, w')) :
    (∃ c', run env is none (c.push (.int b)) = .jump (.block (if b = 0#32 then e else t)) c' ∧
      AssignedAtOnce env opts w₀ src (f.phis (if b = 0#32 then e else t)) c c') ↔
        Sequenced env opts w₀ src (f.phis (if b = 0#32 then e else t)) c := by
  rw [printBranchIf] at hprint
  by_cases hte : t = e
  · -- both branches go to the same block
    subst hte
    rw [if_pos rfl] at hprint
    rw [ite_self]
    obtain ⟨br, w₁, hbr, hprint⟩ := emit_bind_eq_some hprint
    cases hprint
    have hpop : run env (.pop :: br) none (c.push (.int b)) = run env br none c := rfl
    rw [hpop]
    exact run_printBranch hf hw hw₀ hvars hblocks hs hv hbr
  · rw [if_neg hte] at hprint
    obtain ⟨l, w₁, hl, hprint₁⟩ := emit_bind_eq_some hprint
    obtain ⟨br, w₂, hbr, hprint₂⟩ := emit_bind_eq_some hprint₁
    obtain ⟨copies, w₃, hcopies, hprint₃⟩ := emit_bind_eq_some hprint₂
    clear hprint hprint₁ hprint₂
    rw [printFalseCopies_eq] at hcopies
    obtain ⟨br', w₂', hbr', hvars₂, hblocks₂, huid₂, hlast₂, hrunbr⟩ := printIfne_eq env opts l w₁
    cases hbr.symm.trans hbr'
    rcases trueLabel_eq f t w with ⟨hphis, hlabel⟩ | ⟨hphis, hlabel⟩
    · cases hl.symm.trans hlabel
      rw [if_pos (List.isEmpty_iff.mpr hphis)] at hprint₃
      cases hprint₃
      have hw₂ : w₂.Fresh := fun l hl u hu => huid₂ ▸ hw l (hlast₂ ▸ hl) u hu
      obtain ⟨hemit, hiff⟩ := run_printPHICopy env hf hw₂ hw₀ (hvars₂.trans hvars)
        (hblocks₂.trans hblocks) hs hv hcopies List.not_mem_nil
      by_cases hb : b = 0#32
      · rw [if_pos hb, hb, List.append_assoc, run_append_of_fall (hrunbr c).1]
        exact hiff
      · have hskip : run env (copies ++ [gotoToken opts (.block e)]) (some (.block t)) c =
            .jump (.block t) c :=
          run_skip (by simp [gotoToken, hemit.label_not_mem (l := .block t) (by simp)]) c
        rw [if_neg hb, List.append_assoc, run_append, (hrunbr c).2 b hb (by simp), hphis]
        exact iff_of_true ⟨c, hskip, (assignedAtOnce_nil w₀ src c).1⟩
          (assignedAtOnce_nil w₀ src c).2
    · cases hl.symm.trans hlabel
      rw [if_neg (by simpa using hphis)] at hprint₃
      obtain ⟨label, w₄, hlab, hprint₄⟩ := emit_bind_eq_some hprint₃
      obtain ⟨trueCopies, w₅, htrue, hprint₅⟩ := emit_bind_eq_some hprint₄
      cases hprint₅
      have hw₂ : w₂.Fresh := fun l hl u hu =>
        huid₂ ▸ (hw l (hlast₂ ▸ hl) u hu).trans (Nat.le_succ _)
      have hvars₂' := hvars₂.trans hvars
      have hblocks₂' := hblocks₂.trans hblocks
      have hemit : Emitted w₂ w₃ copies := (run_printPHICopy env hf hw₂ hw₀ hvars₂' hblocks₂'
        hs hv hcopies List.not_mem_nil).1
      -- the label in front of the copies for the true block is new
      have hlast : w₂.lastLabel ≠ some (.phi t (w.uid + 1)) := by
        intro heq
        have hle := hw _ (hlast₂ ▸ heq) _ rfl
        omega
      rw [printLabel_of_ne (hemit.last_ne hlast (by simp))] at hlab
      cases hlab
      have hw₄ : Writer.Fresh { w₃ with lastLabel := some (.phi t (w.uid + 1)) } := by
        apply fresh_of_label
        intro u hu
        cases hu
        exact huid₂.symm.trans_le hemit.uid_le
      obtain ⟨hemit₅, htrueiff⟩ := run_printPHICopy env hf hw₄ hw₀
        (hemit.localVars.trans hvars₂') (hemit.basicblockMap.trans hblocks₂') hs hv htrue
        List.not_mem_nil
      by_cases hb : b = 0#32
      · rw [if_pos hb, hb]
        simp only [List.append_assoc]
        rw [run_append_of_fall (hrunbr c).1]
        exact (run_printPHICopy env hf hw₂ hw₀ hvars₂' hblocks₂' hs hv hcopies
          (by simp [gotoToken, hemit₅.label_not_mem (l := .block e) (by simp)])).2
      · have hskip : run env (copies ++ [gotoToken opts (.block e)]) (some (.phi t (w.uid + 1))) c =
            .jump (.phi t (w.uid + 1)) c :=
          run_skip (by simp [gotoToken, hemit.label_not_mem (l := .phi t (w.uid + 1)) (by simp)]) c
        rw [if_neg hb]
        simp only [List.append_assoc]
        rw [run_append, (hrunbr c).2 b hb (by simp), ← List.append_assoc copies, Exit.andThen,
          run_append, hskip, Exit.andThen, List.cons_append, run, if_pos rfl]
        exact htrueiff

end conditional

/-- The condition of a branch is a value of the function. -/
def BranchInst.WellFormed (f : Function) : BranchInst → Prop
  | .unconditional _ _ => True
  | .conditional _ cond _ _ => cond.In f.vars

/-- The code of an edge assigns to all PHI nodes of the block at once exactly when every
incoming value can be loaded and none is a PHI node that an earlier copy has changed. -/
theorem printBranchInstruction_parallel_iff (env : Env) (opts : GenerationOpts) (f : Function)
    (hf : f.WellFormed) (inst : BranchInst) (hinst : inst.WellFormed f) (w w' : Writer)
    (hw : w.Fresh) (hs : Slots w f.vars) (is : Code)
    (hprint : printBranchInstruction opts f inst w = some (is, w')) (c : Config)
    (hv : Valuation w f.vars c.locals) (s : ℕ) (htakes : Takes env opts w c inst s) :
    (∃ c', run env is none c = .jump (.block s) c' ∧
      AssignedAtOnce env opts w inst.parent (f.phis s) c c') ↔
        Sequenced env opts w inst.parent (f.phis s) c := by
  cases inst with
  | unconditional parent dest =>
      obtain rfl : s = dest := htakes
      exact run_printBranch hf hw hw rfl rfl hs hv hprint
  | conditional parent cond t e =>
      obtain ⟨b, ⟨load, w₁, hload, hrun⟩, rfl⟩ := htakes
      obtain ⟨load', w₁', hload', hprint⟩ := emit_bind_eq_some hprint
      cases hload.symm.trans hload'
      obtain ⟨br, w₂, hbr, hprint⟩ := emit_bind_eq_some hprint
      cases hprint
      have hemit := emitted_printValueLoad hw hs hinst hload
      rw [run_append_of_fall hrun]
      exact run_printBranchIf hf (hemit.fresh hw) hw hemit.localVars hemit.basicblockMap hs hv b hbr

/-- A loop whose PHI nodes shift a value along: the old value of `%0` to `%1`, and `3` to
`%0`. -/
def shiftLoop : Function where
  vars := [⟨0, .int .w32⟩, ⟨1, .int .w32⟩]
  phis _ := [⟨⟨1, .int .w32⟩, [(0, .var ⟨0, .int .w32⟩)]⟩,
    ⟨⟨0, .int .w32⟩, [(0, .const (.int .w32 3))]⟩]

/-- The same loop, with PHI nodes that exchange the two values. -/
def swapLoop : Function where
  vars := [⟨0, .int .w32⟩, ⟨1, .int .w32⟩]
  phis _ := [⟨⟨0, .int .w32⟩, [(0, .var ⟨1, .int .w32⟩)]⟩,
    ⟨⟨1, .int .w32⟩, [(0, .var ⟨0, .int .w32⟩)]⟩]

def loopWriter : Writer := ⟨[(0, 0), (1, 1)], 2, [], 0, 700, none⟩

def loopConfig : Config := ⟨fun n => if n < 2 then some (.int (BitVec.ofNat 32 n)) else none, [],
  Memory.initial⟩

theorem loopWriter_slots : Slots loopWriter [⟨0, .int .w32⟩, ⟨1, .int .w32⟩] := by
  constructor
  · intro v hv
    simp only [List.mem_cons, List.not_mem_nil, or_false] at hv
    rcases hv with rfl | rfl <;> rfl
  · intro u hu v hv hne
    simp only [List.mem_cons, List.not_mem_nil, or_false] at hu hv
    rcases hu with rfl | rfl <;> rcases hv with rfl | rfl <;> first | exact absurd rfl hne | decide

theorem loopConfig_valuation :
    Valuation loopWriter [⟨0, .int .w32⟩, ⟨1, .int .w32⟩] loopConfig.locals := by
  constructor
  · intro v hv
    simp only [List.mem_cons, List.not_mem_nil, or_false] at hv
    rcases hv with rfl | rfl <;> exact ⟨_, rfl, rfl, rfl⟩
  · intro k hk
    simp only [loopConfig] at hk ⊢
    split_ifs at hk ⊢ <;> simp_all [Val.isWide]

theorem shiftLoop_wellFormed : shiftLoop.WellFormed where
  ids := by
    intro u hu v hv hid
    simp only [shiftLoop, List.mem_cons, List.not_mem_nil, or_false] at hu hv
    rcases hu with rfl | rfl <;> rcases hv with rfl | rfl <;> first | rfl | cases hid
  result_mem := by
    intro b p hp
    simp only [shiftLoop, List.mem_cons, List.not_mem_nil, or_false] at hp
    rcases hp with rfl | rfl <;> simp [shiftLoop]
  results := by
    intro b
    simp [shiftLoop]
  incoming := by
    intro b p hp src v hv
    simp only [shiftLoop, List.mem_cons, List.not_mem_nil, or_false] at hp
    rcases hp with rfl | rfl <;>
      simp only [Phi.getIncomingValueForBlock, List.lookup_cons] at hv <;>
      split at hv <;> cases hv
    · exact ⟨by simp [Value.In, shiftLoop], rfl⟩
    · exact ⟨trivial, rfl⟩

/-- In the order of the shift no copy disturbs another one. -/
theorem shiftLoop_parallel :
    ∃ is w', printBranchInstruction ⟨false, false, false, false⟩ shiftLoop (.unconditional 0 0)
        loopWriter = some (is, w') ∧
      ∃ c', run .plain is none loopConfig = .jump (.block 0) c' ∧
        AssignedAtOnce .plain ⟨false, false, false, false⟩ loopWriter 0 (shiftLoop.phis 0)
          loopConfig c' := by
  refine ⟨_, _, rfl, (printBranchInstruction_parallel_iff .plain ⟨false, false, false, false⟩
    shiftLoop shiftLoop_wellFormed (.unconditional 0 0) trivial loopWriter _ (by simp [loopWriter,
    Writer.Fresh]) loopWriter_slots _ rfl loopConfig loopConfig_valuation 0 rfl).mpr ⟨?_, ?_⟩⟩
  · intro p hp v hv
    simp only [shiftLoop, List.mem_cons, List.not_mem_nil, or_false] at hp
    rcases hp with rfl | rfl <;> cases hv
    · exact ⟨.int 0, ⟨_, _, rfl, rfl⟩, rfl⟩
    · exact ⟨.int 3, ⟨_, _, rfl, rfl⟩, rfl⟩
  · refine List.pairwise_cons.mpr ⟨?_, List.pairwise_singleton _ _⟩
    intro q hq v hv u hu
    rw [List.mem_singleton.mp hq] at hu
    cases hu

/-- The exchange: both variables end up with the value of `%1`. -/
theorem swapLoop_not_parallel :
    ∃ is w', printBranchInstruction ⟨false, false, false, false⟩ swapLoop (.unconditional 0 0)
        loopWriter = some (is, w') ∧
      ¬ ∃ c', run .plain is none loopConfig = .jump (.block 0) c' ∧
        AssignedAtOnce .plain ⟨false, false, false, false⟩ loopWriter 0 (swapLoop.phis 0)
          loopConfig c' := by
  refine ⟨_, _, rfl, ?_⟩
  rintro ⟨c', hrun, h⟩
  cases hrun
  obtain ⟨x, ⟨is, w', hprint, hload⟩, hlocal⟩ := h.assigned
    ⟨⟨1, .int .w32⟩, [(0, .var ⟨0, .int .w32⟩)]⟩ (by simp [swapLoop]) (.var ⟨0, .int .w32⟩) rfl
  cases hprint
  have hx : Val.int 0#32 = x := by
    have hstack := congrArg (fun e => match e with | Exit.fall c => c.stack | _ => []) hload
    exact (List.cons.inj hstack).1
  rw [← hx] at hlocal
  revert hlocal
  decide

end branch

end Llxvm.Backend
