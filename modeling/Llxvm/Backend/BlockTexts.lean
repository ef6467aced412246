import Llxvm.Backend.Emission

/-!
# The texts of blocks

In the body of a method the lines of the instructions of a block follow its label, and the body
begins with the label of the entry block.
-/

namespace Llxvm.Backend

open Llxvm.Jvm

/-- Every block comes right behind its label, which may be that of a header; jumps back come behind
blocks. -/
inductive Joined : List Segment → Prop
  | nil : Joined []
  | block {id : ℕ} {insts : List (Inst × List Line)} {backs : List Instr} {segs : List Segment}
      (h : Joined segs) :
      Joined (.block id [.label (.block id)] insts :: (backs.map .back ++ segs))
  | header {id : ℕ} {insts : List (Inst × List Line)} {backs : List Instr} {segs : List Segment}
      (h : Joined segs) :
      Joined (.header [.label (.block id)] :: .block id [] insts :: (backs.map .back ++ segs))

namespace Joined

variable {segs segs' : List Segment}

theorem append (h : Joined segs) (h' : Joined segs') : Joined (segs ++ segs') := by
  induction h with
  | nil => exact h'
  | block _ ih =>
      rw [List.cons_append, List.append_assoc]
      exact .block ih
  | header _ ih =>
      rw [List.cons_append, List.cons_append, List.append_assoc]
      exact .header ih

theorem back (h : Joined segs) (hne : segs ≠ []) (jump : Instr) :
    Joined (segs ++ [.back jump]) := by
  -- behind the last block there is one more jump
  have hlast : ∀ (backs : List Instr) {segs : List Segment}, Joined segs →
      (segs ≠ [] → Joined (segs ++ [.back jump])) →
        ∃ (backs' : List Instr) (segs' : List Segment), Joined segs' ∧
          backs.map Segment.back ++ segs ++ [.back jump] = backs'.map .back ++ segs' := by
    intro backs segs hsegs ih
    by_cases hnil : segs = []
    · exact ⟨backs ++ [jump], [], .nil, by simp [hnil]⟩
    · exact ⟨backs, _, ih hnil, List.append_assoc _ _ _⟩
  induction h with
  | nil => exact (hne rfl).elim
  | @block id insts backs segs h ih =>
      obtain ⟨backs', segs', hsegs', heq⟩ := hlast backs h ih
      rw [List.cons_append, heq]
      exact .block hsegs'
  | @header id insts backs segs h ih =>
      obtain ⟨backs', segs', hsegs', heq⟩ := hlast backs h ih
      rw [List.cons_append, List.cons_append, heq]
      exact .header hsegs'

theorem exists_text (h : Joined segs) {id : ℕ} {label : Code} {insts : List (Inst × List Line)}
    (hmem : .block id label insts ∈ segs) : ∃ pre post, segs.flatMap Segment.lines =
      pre ++ .instr (.label (.block id)) :: (insts.flatMap Prod.snd ++ post) := by
  induction h with
  | nil => cases hmem
  | @block id' insts' backs segs h ih =>
      simp only [List.mem_cons, List.mem_append, List.mem_map, reduceCtorEq, and_false,
        exists_false, false_or, Segment.block.injEq] at hmem
      rcases hmem with ⟨rfl, rfl, rfl⟩ | hmem
      · exact ⟨[], _, rfl⟩
      · obtain ⟨pre, post, heq⟩ := ih hmem
        rw [List.flatMap_cons, List.flatMap_append, heq, ← List.append_assoc, ← List.append_assoc]
        exact ⟨_, post, rfl⟩
  | @header id' insts' backs segs h ih =>
      simp only [List.mem_cons, List.mem_append, List.mem_map, reduceCtorEq, and_false,
        exists_false, false_or, Segment.block.injEq] at hmem
      rcases hmem with ⟨rfl, rfl, rfl⟩ | hmem
      · exact ⟨[], _, rfl⟩
      · obtain ⟨pre, post, heq⟩ := ih hmem
        rw [List.flatMap_cons, List.flatMap_cons, List.flatMap_append, heq, ← List.append_assoc,
          ← List.append_assoc, ← List.append_assoc]
        exact ⟨_, post, rfl⟩

/-- The first block stands at the beginning. -/
theorem exists_head (h : Joined segs) {id : ℕ} {insts : List Inst} {rest : List (ℕ × List Inst)}
    (hprinted : segs.filterMap Segment.printed = (id, insts) :: rest) :
    ∃ post, segs.flatMap Segment.lines = .instr (.label (.block id)) :: post := by
  cases h with
  | nil => cases hprinted
  | block h =>
      cases hprinted
      exact ⟨_, rfl⟩
  | header h =>
      cases hprinted
      exact ⟨_, rfl⟩

end Joined

section blocks

variable {f : FunctionDef} {opts : GenerationOpts} {vaArgNum : ℕ} (hf : f.WellFormed)

/-- The label of a block is printed, unless that of a header is the last one. -/
theorem printBasicBlock_joined {b : BasicBlock} {w w' : Writer} (hfresh : Fresh w [b.id])
    {seg : Segment} (hprint : printBasicBlock opts f vaArgNum b w = some (seg, w')) :
    Joined [seg] := by
  obtain ⟨label, w₁, hlabel, h₁⟩ := emit_bind_eq_some hprint
  obtain ⟨code, w₂, hcode, h₂⟩ := emit_bind_eq_some h₁
  cases h₂
  rw [printLabel_of_ne (hfresh b.id List.mem_cons_self)] at hlabel
  cases hlabel
  exact @Joined.block _ _ [] _ .nil

theorem printBasicBlock_header {b : BasicBlock} {w w' : Writer}
    (hlast : w.lastLabel = some (.block b.id)) {seg : Segment}
    (hprint : printBasicBlock opts f vaArgNum b w = some (seg, w')) :
    Joined [.header [.label (.block b.id)], seg] := by
  obtain ⟨label, w₁, hlabel, h₁⟩ := emit_bind_eq_some hprint
  obtain ⟨code, w₂, hcode, h₂⟩ := emit_bind_eq_some h₁
  cases h₂
  simp only [printLabel, emit_bind, emit_get, Option.bind_some, hlast, if_true] at hlabel
  cases hlabel
  exact @Joined.header _ _ [] _ .nil

theorem printLoopBlock_joined {inner : ℕ → Emit (List Segment)} {order : ℕ → List ℕ} {l b : ℕ}
    (hinner : ∀ {c}, f.loopInfo.IsLoop c → f.loopInfo.parentLoop c = some l →
      ∀ {w w' segs}, f.Ready vaArgNum w → Fresh w (order c) → inner c w = some (segs, w') →
        Joined segs)
    {w w' : Writer} (hw : f.Ready vaArgNum w)
    (hfresh : Fresh w (f.loopInfo.blockOrder order l b)) {segs : List Segment}
    (hprint : printLoopBlock opts f vaArgNum inner l b w = some (segs, w')) : Joined segs := by
  unfold printLoopBlock at hprint
  unfold LoopInfo.blockOrder at hfresh
  cases hb : f.block b with
  | none =>
      rw [hb] at hprint
      cases hprint
  | some block =>
      cases hm : f.loopInfo.loopFor b with
      | none =>
          rw [hb, hm] at hprint
          cases hprint
      | some blockLoop =>
          rw [hb, hm] at hprint
          rw [hm] at hfresh
          simp only at hprint hfresh
          split_ifs at hprint hfresh with heq hchild
          · obtain ⟨seg, w₁, hseg, h₁⟩ := emit_bind_eq_some hprint
            cases h₁
            obtain ⟨-, rfl⟩ := FunctionDef.block_mem hb
            exact printBasicBlock_joined hfresh hseg
          · exact hinner (.of_loopFor hm) hchild.2.symm hw hfresh hprint
          · cases hprint
            exact .nil

include hf

theorem printLoopBlocks_joined {inner : ℕ → Emit (List Segment)} {order : ℕ → List ℕ} {l : ℕ}
    (hprints : ∀ {c}, f.loopInfo.IsLoop c → f.loopInfo.parentLoop c = some l →
      ∀ {w w' segs}, f.Ready vaArgNum w → Fresh w (order c) → inner c w = some (segs, w') →
        PrintsBody opts f vaArgNum (order c) w w' segs)
    (hinner : ∀ {c}, f.loopInfo.IsLoop c → f.loopInfo.parentLoop c = some l →
      ∀ {w w' segs}, f.Ready vaArgNum w → Fresh w (order c) → inner c w = some (segs, w') →
        Joined segs)
    {bs : List ℕ} (hnodup : (bs.flatMap (f.loopInfo.blockOrder order l)).Nodup) {w w' : Writer}
    (hw : f.Ready vaArgNum w) (hfresh : Fresh w (bs.flatMap (f.loopInfo.blockOrder order l)))
    {segs : List Segment}
    (hprint : printLoopBlocks opts f vaArgNum inner l bs w = some (segs, w')) : Joined segs := by
  induction bs generalizing w segs with
  | nil =>
      cases hprint
      exact .nil
  | cons b bs ih =>
      obtain ⟨first, w₁, hfirst, h₁⟩ := emit_bind_eq_some hprint
      obtain ⟨rest, w₂, hrest, h₂⟩ := emit_bind_eq_some h₁
      cases h₂
      rw [List.flatMap_cons] at hnodup hfresh
      have hdisj := List.disjoint_of_nodup_append hnodup
      have hfresh₁ := hfresh.mono (List.subset_append_left _ _)
      have hb := printLoopBlock_prints hf hprints hw hfresh₁ hfirst
      apply (printLoopBlock_joined hinner hw hfresh₁ hfirst).append
      exact ih hnodup.of_append_right (hw.afterOps hb.toPrintsOps)
        (hb.fresh (hfresh.mono (List.subset_append_right _ _)) hdisj) hrest

theorem printLoop_joined {n l : ℕ} (hl : f.loopInfo.IsLoop l)
    (hn : (f.loopInfo.blocks l).length ≤ n) {w w' : Writer} (hw : f.Ready vaArgNum w)
    (hfresh : Fresh w (f.loopInfo.loopOrder n l)) {segs : List Segment}
    (hprint : printLoop opts f vaArgNum n l w = some (segs, w')) : Joined segs := by
  induction n generalizing l w w' segs with
  | zero => cases hprint
  | succ n ih =>
      have hnodup := (hf.loops.loopOrder_spec hl hn).1
      obtain ⟨rest, hblocks⟩ := hf.loops.blocks_eq l hl
      have hheader := hf.loops.loopFor_header l hl
      have horder : f.loopInfo.loopOrder (n + 1) l = [f.loopInfo.header l] ++
          rest.flatMap (f.loopInfo.blockOrder (f.loopInfo.loopOrder n) l) := by
        rw [LoopInfo.loopOrder, hblocks, List.flatMap_cons, LoopInfo.blockOrder, hheader]
        simp
      rw [horder] at hnodup hfresh
      have hdisj := List.disjoint_of_nodup_append hnodup
      have hinner : ∀ {c}, f.loopInfo.IsLoop c → f.loopInfo.parentLoop c = some l →
          ∀ {w w' segs}, f.Ready vaArgNum w → Fresh w (f.loopInfo.loopOrder n c) →
            printLoop opts f vaArgNum n c w = some (segs, w') →
              PrintsBody opts f vaArgNum (f.loopInfo.loopOrder n c) w w' segs ∧ Joined segs := by
        intro c hc hp w w' segs hw hfresh hprint
        have hlt := hf.loops.length_lt hc hp
        exact ⟨printLoop_prints hf hc (by omega) hw hfresh hprint,
          ih hc (by omega) hw hfresh hprint⟩
      obtain ⟨label, w₁, hlabel, h₁⟩ := emit_bind_eq_some hprint
      obtain ⟨body, w₂, hbody, h₂⟩ := emit_bind_eq_some h₁
      cases h₂
      rw [hblocks] at hbody
      obtain ⟨first, w₃, hfirst, h₃⟩ := emit_bind_eq_some hbody
      obtain ⟨others, w₄, hothers, h₄⟩ := emit_bind_eq_some h₃
      cases h₄
      obtain ⟨rfl, rfl, hprints⟩ := Prints.label (T := f.IsBlock) (l := .block _) trivial
        (hfresh _ (List.mem_append_left _ List.mem_cons_self)) hlabel
      have hann : PrintsOps f.IsBlock [.block (f.loopInfo.header l)] [] w _
          (lines [.label (.block (f.loopInfo.header l))]) :=
        ⟨hprints, ⟨rfl, rfl⟩, fun n => by simp [Line.labels, jumps]⟩
      have hw₁ := hw.afterOps hann
      unfold printLoopBlock at hfirst
      cases hb : f.block (f.loopInfo.header l) with
      | none =>
          rw [hb] at hfirst
          cases hfirst
      | some block =>
          rw [hb, hheader] at hfirst
          simp only [if_true] at hfirst
          obtain ⟨seg, w₅, hseg, h₅⟩ := emit_bind_eq_some hfirst
          cases h₅
          obtain ⟨-, hops, -⟩ := printBasicBlock_last hf hb hw₁ rfl hseg
          obtain ⟨-, hid⟩ := FunctionDef.block_mem hb
          rw [← hid] at hseg ⊢
          -- neither the header nor its block have the labels of the other blocks
          have hfresh₃ : Fresh w₃ (rest.flatMap
              (f.loopInfo.blockOrder (f.loopInfo.loopOrder n) l)) := by
            intro id hid
            refine (hann.append hops).toPrints.last_ne
              (hfresh id (List.mem_append_right _ hid)) trivial fun hmem => ?_
            obtain rfl : id = f.loopInfo.header l := by simpa using hmem
            exact hdisj List.mem_cons_self hid
          have hrest := printLoopBlocks_joined hf (fun hc hp _ _ _ hw hfresh hprint =>
            (hinner hc hp hw hfresh hprint).1) (fun hc hp _ _ _ hw hfresh hprint =>
            (hinner hc hp hw hfresh hprint).2) hnodup.of_append_right (hw₁.afterOps hops) hfresh₃
            hothers
          exact ((printBasicBlock_header rfl hseg).append hrest).back (by simp) _

theorem printBodyBlock_joined {b : BasicBlock} {w w' : Writer}
    (hw : f.Ready vaArgNum w) (hfresh : Fresh w (f.loopInfo.topOrder f.blocks.length b.id))
    {segs : List Segment} (hprint : printBodyBlock opts f vaArgNum b w = some (segs, w')) :
    Joined segs := by
  unfold printBodyBlock at hprint
  unfold LoopInfo.topOrder at hfresh
  cases hm : f.loopInfo.loopFor b.id with
  | none =>
      rw [hm] at hprint hfresh
      obtain ⟨seg, w₁, hseg, h₁⟩ := emit_bind_eq_some hprint
      cases h₁
      exact printBasicBlock_joined hfresh hseg
  | some l =>
      rw [hm] at hprint hfresh
      simp only at hprint hfresh
      split_ifs at hprint hfresh
      · have hl : f.loopInfo.IsLoop l := .of_loopFor hm
        have hlength := (List.subperm_of_subset (hf.loops.nodup l hl)
          (hf.loops.blocks_subset hl)).length_le
        rw [List.length_map] at hlength
        exact printLoop_joined hf hl hlength hw hfresh hprint
      · cases hprint
        exact .nil

theorem printBodyBlocks_joined {bs : List BasicBlock} (hbs : ∀ b ∈ bs, b ∈ f.blocks)
    (hnodup : ((bs.map BasicBlock.id).flatMap (f.loopInfo.topOrder f.blocks.length)).Nodup)
    {w w' : Writer} (hw : f.Ready vaArgNum w)
    (hfresh : Fresh w ((bs.map BasicBlock.id).flatMap (f.loopInfo.topOrder f.blocks.length)))
    {segs : List Segment} (hprint : printBodyBlocks opts f vaArgNum bs w = some (segs, w')) :
    Joined segs := by
  induction bs generalizing w segs with
  | nil =>
      cases hprint
      exact .nil
  | cons b bs ih =>
      obtain ⟨first, w₁, hfirst, h₁⟩ := emit_bind_eq_some hprint
      obtain ⟨rest, w₂, hrest, h₂⟩ := emit_bind_eq_some h₁
      cases h₂
      rw [List.map_cons, List.flatMap_cons] at hnodup hfresh
      have hdisj := List.disjoint_of_nodup_append hnodup
      have hfresh₁ := hfresh.mono (List.subset_append_left _ _)
      have hb := printBodyBlock_prints hf (hbs b List.mem_cons_self) hw hfresh₁ hfirst
      apply (printBodyBlock_joined hf hw hfresh₁ hfirst).append
      exact ih (fun b' hb' => hbs b' (List.mem_cons_of_mem b hb'))
        hnodup.of_append_right (hw.afterOps hb.toPrintsOps)
        (hb.fresh (hfresh.mono (List.subset_append_right _ _)) hdisj) hrest

theorem printFunctionBody_joined {w w' : Writer} (hw : f.Ready vaArgNum w)
    (hfresh : ∀ id, w.lastLabel ≠ some (.block id)) {segs : List Segment}
    (hprint : printFunctionBody opts f vaArgNum w = some (segs, w')) : Joined segs := by
  have hperm := hf.loops.bodyOrder_perm hf.ids
  unfold LoopInfo.bodyOrder at hperm
  rw [List.length_map] at hperm
  exact printBodyBlocks_joined hf (fun _ h => h) (hperm.nodup_iff.mpr hf.ids) hw
    (fun id _ => hfresh id) hprint

end blocks

/-! ## The whole method -/

/-- The method of a function: its local variables are cleared, a frame is opened, and the blocks
follow. -/
structure BlockTexts (opts : GenerationOpts) (skip : Bool) (f : FunctionDef) (vaArgNum : ℕ)
    (w w₁ : Writer) (m : MethodText) : Prop where
  begun : Begun f vaArgNum w w₁
  prologue : ∃ w₀ init, printBlockVariables opts skip f.blocks w₀ = some (init, w₁) ∧
    m.prologue = lines (init ++ initJumps w₁.usedRegisters f.numJumps ++ [.label .beginMethod] ++
      [.invokestatic .createStackFrame])
  body : ∃ w₂, PrintsBody opts f vaArgNum f.order { w₁ with lastLabel := some .beginMethod } w₂
    m.body
  joined : Joined m.body

section method

variable {f : FunctionDef} {opts : GenerationOpts} {skip : Bool}
  {curBasicblockMapId maxOperands : ℕ} {w w' : Writer} {m : MethodText} (hf : f.WellFormed)

include hf

theorem printFunction_blockTexts (hlast : w.lastLabel ≠ some .beginMethod)
    (hprint : printFunction opts skip f curBasicblockMapId maxOperands w = some (m, w')) :
    ∃ vaArgNum w₁, BlockTexts opts skip f vaArgNum w w₁ m := by
  obtain ⟨_, w₁, h₁, hprint⟩ := emit_bind_eq_some hprint
  obtain ⟨_, w₂, h₂, hprint⟩ := emit_bind_eq_some hprint
  obtain ⟨vaArgNum, w₃, h₃, hprint⟩ := emit_bind_eq_some hprint
  obtain ⟨init, w₄, h₄, hprint⟩ := emit_bind_eq_some hprint
  obtain ⟨hbegun, -⟩ := begun hf h₁ h₂ h₃ h₄
  obtain ⟨_, _, hget, hprint⟩ := emit_bind_eq_some hprint
  cases hget
  obtain ⟨label, w₅, hlabel, hprint⟩ := emit_bind_eq_some hprint
  rw [printLabel_of_ne (by rwa [hbegun.lastLabel])] at hlabel
  cases hlabel
  obtain ⟨body, w₆, hbody, hprint⟩ := emit_bind_eq_some hprint
  obtain ⟨handler, w₇, -, hprint⟩ := emit_bind_eq_some hprint
  obtain ⟨_, _, -, hprint⟩ := emit_bind_eq_some hprint
  obtain ⟨end_method, w₈, -, hprint⟩ := emit_bind_eq_some hprint
  cases hprint
  exact ⟨vaArgNum, w₄, hbegun, ⟨w₃, init, h₄, rfl⟩,
    ⟨w₆, printFunctionBody_prints hf hbegun.ready (by simp) hbody⟩,
    printFunctionBody_joined hf hbegun.ready (by simp) hbody⟩

variable {vaArgNum : ℕ} {w₁ : Writer} (h : BlockTexts opts skip f vaArgNum w w₁ m)

include h

/-- Behind the label of a block stand the lines of its instructions. -/
theorem BlockTexts.exists_blockText {b : BasicBlock} (hb : b ∈ f.blocks) :
    ∃ (pre post : List Line) (insts : List (Inst × List Line)),
      m.lines = pre ++ .instr (.label (.block b.id)) :: (insts.flatMap Prod.snd ++ post) ∧
      insts.map Prod.fst = b.insts ∧
      ∀ p ∈ insts, MadeBy opts f vaArgNum { w₁ with lastLabel := some .beginMethod } p := by
  obtain ⟨w₂, hbody⟩ := h.body
  have hprinted : (b.id, b.insts) ∈ m.body.filterMap Segment.printed := by
    rw [hbody.printed, ← hf.insts_eq hb]
    exact List.mem_map.mpr ⟨b.id, hf.order_perm.mem_iff.mpr (List.mem_map_of_mem hb), rfl⟩
  obtain ⟨seg, hseg, heq⟩ := List.mem_filterMap.mp hprinted
  cases seg with
  | header label => cases heq
  | back jump => cases heq
  | block id label insts =>
      obtain ⟨rfl, hinsts⟩ := Prod.ext_iff.mp (Option.some.inj heq)
      obtain ⟨pre, post, htext⟩ := h.joined.exists_text hseg
      refine ⟨m.prologue ++ pre, post ++ (m.handler ++ m.epilogue), insts, ?_, hinsts, ?_⟩
      · rw [MethodText.lines, htext]
        simp only [List.append_assoc, List.cons_append]
      · intro p hp
        exact hbody.made p (List.mem_flatMap.mpr ⟨_, hseg, hp⟩)

/-- The label of the entry block comes first. -/
theorem BlockTexts.exists_entryText {b : BasicBlock} {bs : List BasicBlock}
    (hblocks : f.blocks = b :: bs) :
    ∃ post, m.lines = m.prologue ++ .instr (.label (.block b.id)) :: post := by
  obtain ⟨w₂, hbody⟩ := h.body
  have hhead : f.order.head? = some b.id := by
    rw [FunctionDef.order, hf.loops.head_bodyOrder, hblocks]
    rfl
  obtain ⟨rest, horder⟩ := List.head?_eq_some_iff.mp hhead
  have hprinted := hbody.printed
  rw [horder] at hprinted
  obtain ⟨post, htext⟩ := h.joined.exists_head hprinted
  refine ⟨post ++ (m.handler ++ m.epilogue), ?_⟩
  rw [MethodText.lines, htext]
  rfl

end method

end Llxvm.Backend
