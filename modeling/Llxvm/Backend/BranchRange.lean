import Llxvm.Backend.Emission

/-!
# Branches with an offset of 16 bits

With `-B` the branches of an instruction that have an offset of 16 bits stay within the code of that
instruction.  The tests of `printCatchJump` are not rewritten.
-/

namespace Llxvm.Backend

open Llxvm.Jvm

/-- The options that are set for `-U`, `-B`, `-W` and `-N`. -/
def GenerationOpts.ofSwitches (useKrakatau rewriteBranches wideGotos wideLdc : Bool) :
    GenerationOpts where
  useKrakatau := useKrakatau
  rewriteBranches := rewriteBranches
  wideGotos := wideGotos || rewriteBranches
  wideLdc := wideLdc

/-- The labels that a line names with an offset of 16 bits.  Those of `goto_w` and `lookupswitch`
have 32 bits. -/
def Line.shortTargets : Line → List Label
  | .instr (.goto false l) => [l]
  | .instr (.ifne l) => [l]
  | .instr (.ifeq l) => [l]
  | .instr (.if_icmpeq l) => [l]
  | _ => []

def shortTargets (ls : List Line) : List Label := ls.flatMap Line.shortTargets

/-- The lines of a segment, each piece with the instruction that it is printed for. -/
def Segment.pieces : Segment → List (Option Inst × List Line)
  | .header label => [(none, Backend.lines label)]
  | .block _ label insts => (none, Backend.lines label) :: insts.map fun p => (some p.1, p.2)
  | .back jump => [(none, [.instr jump])]

def MethodText.pieces (m : MethodText) : List (Option Inst × List Line) :=
  (none, m.prologue) :: m.body.flatMap Segment.pieces ++ [(none, m.handler), (none, m.epilogue)]

theorem Segment.pieces_lines (seg : Segment) : seg.pieces.flatMap Prod.snd = seg.lines := by
  cases seg with
  | header label => simp [pieces, lines]
  | block id label insts => simp [pieces, lines, List.flatMap_map]
  | back jump => simp [pieces, lines]

theorem MethodText.handler_mem (m : MethodText) : (none, m.handler) ∈ m.pieces := by
  simp [pieces]

theorem MethodText.pieces_lines (m : MethodText) : m.pieces.flatMap Prod.snd = m.lines := by
  simp [pieces, lines, List.flatMap_assoc, Segment.pieces_lines]

/-- A branch with an offset of 16 bits goes to a label that is printed for the same instruction, and
the other branches are `goto_w`. -/
structure BranchesInRange (m : MethodText) : Prop where
  short : ∀ p ∈ m.pieces, ∀ l ∈ shortTargets p.2, p.1.isSome = true ∧ l ∈ labels p.2
  wide : ∀ p ∈ m.pieces, ∀ i, .instr i ∈ p.2 → ∀ l ∈ Line.targets (.instr i), l ∉ labels p.2 →
    i = .goto true l

/-! ## Lines -/

/-- All branches with an offset of 16 bits go to labels of the same lines. -/
def BranchesLocally (ls : List Line) : Prop := ∀ l ∈ shortTargets ls, l ∈ labels ls

theorem Line.shortTargets_subset (line : Line) : line.shortTargets ⊆ line.targets := by
  unfold shortTargets
  split <;> simp [targets]

theorem shortTargets_subset (ls : List Line) : shortTargets ls ⊆ targets ls := by
  intro l hl
  obtain ⟨line, hline, hl⟩ := List.mem_flatMap.mp hl
  exact List.mem_flatMap.mpr ⟨line, hline, line.shortTargets_subset hl⟩

theorem eq_goto_of_not_short {i : Instr} {l : Label} (hl : l ∈ Line.targets (.instr i))
    (hshort : l ∉ Line.shortTargets (.instr i)) : i = .goto true l := by
  unfold Line.targets at hl
  split at hl
  · next wide target heq =>
      cases heq
      obtain rfl := List.mem_singleton.mp hl
      cases wide with
      | true => rfl
      | false => exact (hshort List.mem_cons_self).elim
  all_goals simp_all [Line.shortTargets]

namespace BranchesLocally

variable {ls js : List Line}

theorem of_eq_nil (h : shortTargets ls = []) : BranchesLocally ls := by
  intro l hl
  rw [h] at hl
  cases hl

theorem append (h₁ : BranchesLocally ls) (h₂ : BranchesLocally js) :
    BranchesLocally (ls ++ js) := by
  intro l hl
  rw [shortTargets, List.flatMap_append] at hl
  rw [labels_append]
  exact List.mem_append.mpr ((List.mem_append.mp hl).imp (h₁ l) (h₂ l))

theorem of_prints {kept : List Label} {w w' : Writer}
    (h : Prints (fun _ => False) kept w w' ls) : BranchesLocally ls := by
  intro l hl
  exact (h.defined l (shortTargets_subset ls hl)).elim id False.elim

end BranchesLocally

/-! ## Instructions -/

section branches

variable {vars : List Local} {opts : GenerationOpts} {f : Function}

theorem Ready.printLabel {w w' : Writer} {l : Label} {code : Code} (hw : Ready vars w)
    (hold : OldLabel w l) (hprint : printLabel l w = some (code, w')) :
    Ready vars w' ∧ BranchesLocally (lines code) := by
  simp only [Backend.printLabel, emit_bind, emit_get, Option.bind_some] at hprint
  split_ifs at hprint with hlast
  · cases hprint
    exact ⟨hw, .of_eq_nil rfl⟩
  · cases hprint
    refine ⟨⟨fun l' hl' => ?_, hw.has, hw.given, hw.room⟩, .of_eq_nil rfl⟩
    cases hl'
    exact hold

/-- A rewritten test goes to the label behind it. -/
theorem branchesLocally_printIfne (hrewrite : opts.rewriteBranches = true) {target : Label}
    {w w' : Writer} {br : Code} (hprint : printIfne opts target w = some (br, w')) :
    BranchesLocally (lines br) := by
  rw [printIfne, if_pos hrewrite] at hprint
  cases hprint
  intro l hl
  simpa [shortTargets, Line.shortTargets, Line.labels] using hl

theorem branchesLocally_gotoToken (hwide : opts.wideGotos = true) (l : Label) :
    BranchesLocally (lines [gotoToken opts l]) :=
  .of_eq_nil (by simp [gotoToken, hwide, shortTargets, Line.shortTargets])

variable (hphis : ∀ b, PhisIn vars (f.phis b)) (hwide : opts.wideGotos = true)

include hphis hwide

theorem branchesLocally_printBranch {src dest : ℕ} {w w' : Writer} (hw : Ready vars w) {is : Code}
    (hprint : printBranch opts f src dest w = some (is, w')) : BranchesLocally (lines is) := by
  obtain ⟨copies, w₁, hcopies, h₁⟩ := emit_bind_eq_some hprint
  cases h₁
  rw [lines_append]
  exact (BranchesLocally.of_prints (safe_printPHICopy hphis src dest hw hcopies).toPrints).append
    (branchesLocally_gotoToken hwide _)

variable (hrewrite : opts.rewriteBranches = true)

include hrewrite

/-- Both copies for PHI nodes are local, and so are the tests; all other branches are `goto_w`. -/
theorem branchesLocally_printBranchIf {src t e : ℕ} {w w' : Writer} (hw : Ready vars w) {is : Code}
    (hprint : printBranchIf opts f src t (some e) w = some (is, w')) :
    BranchesLocally (lines is) := by
  rw [printBranchIf] at hprint
  by_cases hte : t = e
  · rw [if_pos hte] at hprint
    obtain ⟨br, w₁, hbr, h₁⟩ := emit_bind_eq_some hprint
    cases h₁
    have hpop : BranchesLocally (lines [.pop]) := .of_eq_nil rfl
    exact hpop.append (branchesLocally_printBranch hphis hwide hw hbr)
  · rw [if_neg hte] at hprint
    obtain ⟨l, w₁, hl, h₁⟩ := emit_bind_eq_some hprint
    obtain ⟨br, w₂, hbr, h₂⟩ := emit_bind_eq_some h₁
    obtain ⟨copies, w₃, hcopies, h₃⟩ := emit_bind_eq_some h₂
    clear hprint h₁ h₂
    -- the label that the test names has been numbered
    have hlabel : Ready vars w₁ ∧ OldLabel w₁ l := by
      rcases trueLabel_eq f t w with ⟨-, heq⟩ | ⟨-, heq⟩
      · cases hl.symm.trans heq
        exact ⟨hw, trivial⟩
      · cases hl.symm.trans heq
        exact ⟨hw.later ⟨Nat.le_succ _, le_rfl, le_rfl⟩ rfl rfl, le_rfl⟩
    obtain ⟨hw₁, hold⟩ := hlabel
    have hprintsBr := safe_printIfne (T := fun _ => True) trivial hw₁ hbr
    have hw₂ := hw₁.after hprintsBr
    have hprintsCopies := safe_printFalseCopies (T := fun _ => False) hphis src e hw₂ hcopies
    have hw₃ := hw₂.after hprintsCopies
    have hfirst : BranchesLocally (lines (br ++ copies ++ [gotoToken opts (.block e)])) := by
      rw [lines_append, lines_append]
      exact ((branchesLocally_printIfne hrewrite hbr).append
        (.of_prints hprintsCopies.toPrints)).append (branchesLocally_gotoToken hwide _)
    split_ifs at h₃ with hnil
    · cases h₃
      exact hfirst
    · obtain ⟨label, w₄, hlab, h₄⟩ := emit_bind_eq_some h₃
      obtain ⟨trueCopies, w₅, htrue, h₅⟩ := emit_bind_eq_some h₄
      cases h₅
      have hold₃ := (hold.mono hprintsBr.toLater).mono hprintsCopies.toLater
      obtain ⟨hw₄, hlabel⟩ := hw₃.printLabel hold₃ hlab
      have htrue' := safe_printPHICopy (T := fun _ => False) hphis src t hw₄ htrue
      rw [lines_append, lines_append, lines_append]
      exact ((hfirst.append hlabel).append (.of_prints htrue'.toPrints)).append
        (branchesLocally_gotoToken hwide _)

theorem branchesLocally_printBranchInstruction {inst : BranchInst}
    (hinst : inst.WellFormed ⟨vars, f.phis⟩) {w w' : Writer} (hw : Ready vars w) {is : Code}
    (hprint : printBranchInstruction opts f inst w = some (is, w')) :
    BranchesLocally (lines is) := by
  cases inst with
  | unconditional src dest => exact branchesLocally_printBranch hphis hwide hw hprint
  | conditional src cond t e =>
      obtain ⟨load, w₁, hload, h₁⟩ := emit_bind_eq_some hprint
      obtain ⟨br, w₂, hbr, h₂⟩ := emit_bind_eq_some h₁
      cases h₂
      have hload' := safe_printValueLoad (T := fun _ => False) hinst hw hload
      rw [lines_append]
      exact (BranchesLocally.of_prints hload'.toPrints).append
        (branchesLocally_printBranchIf hphis hwide hrewrite (hw.after hload') hbr)

end branches

section operations

variable {opts : GenerationOpts} {f : FunctionDef} {vaArgNum : ℕ} (hf : f.WellFormed)
  (hwide : opts.wideGotos = true) (hrewrite : opts.rewriteBranches = true)

include hf hwide hrewrite

theorem branchesLocally_printOperation {b : BasicBlock} (hb : b ∈ f.blocks) {inst : Inst}
    (hinst : inst ∈ b.insts) {w w' : Writer} (hw : f.Ready vaArgNum w) {ls : List Line}
    (hprint : printOperation opts f vaArgNum inst.op w = some (ls, w')) : BranchesLocally ls := by
  have hoperands := hf.operands b hb inst hinst
  -- all operations that do not go to blocks
  have hother : inst.op.successors = [] → inst.op.isIndirectBr = false → BranchesLocally ls := by
    intro hsuccessors hindirect
    refine .of_prints (printsOp_printOperation_of (T := fun _ => False) hf hb hinst ?_ ?_ hw
      hprint).toPrints
    · rw [hsuccessors]
      intro s hs
      cases hs
    · rw [hindirect]
      intro htrue
      cases htrue
  obtain ⟨result, op⟩ := inst
  simp only at hprint hoperands hother
  cases op with
  | br inst =>
      obtain ⟨is, w₁, his, h₁⟩ := emit_bind_eq_some hprint
      cases h₁
      refine branchesLocally_printBranchInstruction (block_phis hf) hwide hrewrite ?_ hw.toReady his
      cases inst with
      | unconditional src dest => trivial
      | conditional src cond t e =>
          exact hoperands cond (by simp [Operation.operands, BranchInst.condition])
  | switch cases defaultDest =>
      cases hprint
      exact .of_eq_nil rfl
  | indirectBr address destinations =>
      obtain ⟨n, w₁, -, h₁⟩ := emit_bind_eq_some hprint
      obtain ⟨cases, w₂, -, h₂⟩ := emit_bind_eq_some h₁
      clear hprint h₁
      cases hfirst : f.firstNamed with
      | none =>
          rw [hfirst] at h₂
          cases h₂
      | some first =>
          rw [hfirst] at h₂
          cases h₂
          exact .of_eq_nil rfl
  | _ => exact hother rfl rfl

theorem branchesLocally_printInst {b : BasicBlock} (hb : b ∈ f.blocks) {inst : Inst}
    (hinst : inst ∈ b.insts) {w w' : Writer} (hw : f.Ready vaArgNum w) {ls : List Line}
    (hprint : printInst opts f vaArgNum inst w = some (ls, w')) : BranchesLocally ls := by
  obtain ⟨code, w₁, hcode, h₁⟩ := emit_bind_eq_some hprint
  obtain ⟨store, w₂, hstore, h₂⟩ := emit_bind_eq_some h₁
  cases h₂
  have hw₁ := hw.afterOps (printsOp_printOperation hf hb hinst hw hcode).toOps
  have hresult : Safe (fun _ => False) f.locals lines (printResult opts inst.result) := by
    cases hv : inst.result with
    | none => exact safe_pure (by simp [Plain])
    | some v => exact safe_printValueStore (result_mem hb hinst hv)
  exact (branchesLocally_printOperation hf hwide hrewrite hb hinst hw hcode).append
    (.of_prints (hresult hw₁.toReady hstore).toPrints)

end operations

/-! ## Methods -/

theorem branchesInRange_of_short {m : MethodText}
    (h : ∀ p ∈ m.pieces, ∀ l ∈ shortTargets p.2, p.1.isSome = true ∧ l ∈ labels p.2) :
    BranchesInRange m := by
  refine ⟨h, fun p hp i hi l hl hnot => eq_goto_of_not_short hl fun hshort => hnot ?_⟩
  exact (h p hp l (List.mem_flatMap.mpr ⟨_, hi, hshort⟩)).2

/-- The tests of the handler have an offset of 16 bits, and the handler belongs to no
instruction. -/
theorem shortTargets_handlerLines (jumpVarNum numJumps : ℕ) :
    shortTargets (handlerLines jumpVarNum numJumps) =
      (List.range' (jumpVarNum - numJumps) numJumps).map .setjmp := by
  unfold handlerLines
  split_ifs with hzero
  · rw [hzero]
    rfl
  · have htests : shortTargets (lines (catchTests jumpVarNum numJumps)) =
        (List.range' (jumpVarNum - numJumps) numJumps).map .setjmp := by
      rw [List.map_eq_flatMap]
      simp [catchTests, shortTargets, Line.shortTargets, lines, List.map_flatMap,
        List.flatMap_assoc]
    rw [← htests]
    simp [shortTargets, Line.shortTargets, lines]

section method

variable {opts : GenerationOpts} {f : FunctionDef} {vaArgNum : ℕ} {w w₁ w₂ : Writer}
  {m : MethodText} (hf : f.WellFormed) (h : MethodParts opts f vaArgNum w w₁ w₂ m)
  (hwide : opts.wideGotos = true) (hrewrite : opts.rewriteBranches = true)

include h

theorem MethodParts.shortTargets_prologue : shortTargets m.prologue = [] := by
  obtain ⟨init, hinit, hprologue⟩ := h.prologue
  have htargets : targets m.prologue = [] := by
    rw [hprologue]
    simp [hinit.targets, initJumps, targets_flatMap, Line.targets]
  exact List.eq_nil_iff_forall_not_mem.mpr fun l hl => by
    have hmem := shortTargets_subset _ hl
    rw [htargets] at hmem
    cases hmem

include hf hwide hrewrite

/-- Branches of instructions are local, and the other pieces of the body have none. -/
theorem MethodParts.short_body {p : Option Inst × List Line}
    (hp : p ∈ m.body.flatMap Segment.pieces) :
    ∀ l ∈ shortTargets p.2, p.1.isSome = true ∧ l ∈ labels p.2 := by
  obtain ⟨seg, hseg, hp⟩ := List.mem_flatMap.mp hp
  have hnone : shortTargets p.2 = [] →
      ∀ l ∈ shortTargets p.2, p.1.isSome = true ∧ l ∈ labels p.2 := by
    intro hnil l hl
    rw [hnil] at hl
    cases hl
  have hshaped := h.body.shaped seg hseg
  cases seg with
  | header label =>
      obtain ⟨id, rfl⟩ := hshaped
      obtain rfl := List.mem_singleton.mp hp
      exact hnone rfl
  | back jump =>
      obtain ⟨id, rfl⟩ := hshaped
      obtain rfl := List.mem_singleton.mp hp
      exact hnone (by simp [gotoToken, hwide, shortTargets, Line.shortTargets])
  | block id label insts =>
      rcases List.mem_cons.mp hp with rfl | hp
      · rcases hshaped with rfl | rfl <;> exact hnone rfl
      · obtain ⟨q, hq, rfl⟩ := List.mem_map.mp hp
        have hmem : q ∈ m.body.flatMap Segment.insts := List.mem_flatMap.mpr ⟨_, hseg, hq⟩
        obtain ⟨b, hb, hinst⟩ := h.body.inst_mem hf hmem
        obtain ⟨w₃, w₄, hready, -, hprint⟩ := h.body.made q hmem
        exact fun l hl =>
          ⟨rfl, branchesLocally_printInst hf hwide hrewrite hb hinst hready hprint l hl⟩

end method

/-- With `-B` all branches are in range exactly if the function does not call `setjmp`. -/
theorem printFunction_inRange_iff (useKrakatau wideGotos wideLdc skip : Bool) (f : FunctionDef)
    (curBasicblockMapId maxOperands : ℕ) (w w' : Writer) (m : MethodText) (hf : f.WellFormed)
    (hw : w.Reachable (.ofSwitches useKrakatau true wideGotos wideLdc))
    (hprint : printFunction (.ofSwitches useKrakatau true wideGotos wideLdc) skip f
      curBasicblockMapId maxOperands w = some (m, w')) :
    BranchesInRange m ↔ f.numJumps = 0 := by
  obtain ⟨vaArgNum, w₁, w₂, hparts, -, -⟩ := printFunction_parts hf hw.ready.2 hprint
  constructor
  · intro hrange
    by_contra hpos
    -- the first test of the handler
    have hmem : .setjmp (w₂.usedRegisters - f.numJumps) ∈ shortTargets m.handler := by
      rw [hparts.handler, shortTargets_handlerLines]
      exact List.mem_map_of_mem (List.mem_range'_1.mpr ⟨le_rfl, by omega⟩)
    have hsome := (hrange.short _ m.handler_mem _ hmem).1
    cases hsome
  · intro hzero
    refine branchesInRange_of_short fun p hp l hl => ?_
    simp only [MethodText.pieces, List.cons_append, List.mem_cons, List.mem_append,
      List.not_mem_nil, or_false] at hp
    rcases hp with rfl | hp | rfl | rfl
    · rw [hparts.shortTargets_prologue] at hl
      cases hl
    · exact hparts.short_body hf (by simp [GenerationOpts.ofSwitches]) rfl hp l hl
    · rw [hparts.handler, shortTargets_handlerLines, hzero] at hl
      cases hl
    · rw [hparts.epilogue] at hl
      cases hl

theorem printFunction_inRange_call : ∃ m w',
    printFunction (.ofSwitches false true false false) false
      (callFunction ⟨"g", ⟨[], false, none⟩, true⟩) 0 2 .start = some (m, w') ∧
    BranchesInRange m := by
  have hprint : printFunction (.ofSwitches false true false false) false
      (callFunction ⟨"g", ⟨[], false, none⟩, true⟩) 0 2 .start = some (_, _) := rfl
  exact ⟨_, _, hprint, (printFunction_inRange_iff false false false false
    (callFunction ⟨"g", ⟨[], false, none⟩, true⟩) 0 2 .start _ _ (callFunction_wellFormed _)
    (.start rfl rfl) hprint).mpr rfl⟩

/-- The test in the handler goes to a label that is printed for the call of `setjmp`. -/
theorem printFunction_not_inRange : ∃ m w',
    printFunction (.ofSwitches false true false false) false (setjmpFunction [setjmpInst]) 0 2
      .start = some (m, w') ∧ (setjmpFunction [setjmpInst]).WellFormed ∧ ¬ BranchesInRange m := by
  refine ⟨_, _, rfl, setjmpFunction_wellFormed (.inr (.inr rfl)), fun h => ?_⟩
  have hshort := (h.short _ (MethodText.handler_mem _) (.setjmp 2) (by decide)).1
  cases hshort

end Llxvm.Backend
