import Llxvm.Backend.MethodLabels

/-!
# Labels of blocks

The body of a method has the blocks in the order of the loops, each with its label and its
instructions.  The label of the header of a loop is printed once, before the block.
-/

namespace Llxvm.Backend

open Llxvm.Jvm

namespace FunctionDef

variable (f : FunctionDef)

/-- The instructions of a block behind its PHI nodes. -/
def insts (id : ℕ) : List Inst := ((f.block id).map BasicBlock.insts).getD []

def ops (id : ℕ) : List Operation := (f.insts id).map Inst.op

variable {f}

theorem block_mem {id : ℕ} {b : BasicBlock} (h : f.block id = some b) : b ∈ f.blocks ∧ b.id = id :=
  ⟨List.mem_of_find?_eq_some h, by simpa using List.find?_some h⟩

theorem WellFormed.block_eq (hf : f.WellFormed) {b : BasicBlock} (hb : b ∈ f.blocks) :
    f.block b.id = some b := by
  cases h : f.block b.id with
  | none =>
      have hnone := List.find?_eq_none.mp h b hb
      simp at hnone
  | some b' =>
      obtain ⟨hmem, hid⟩ := block_mem h
      rw [List.inj_on_of_nodup_map hf.ids hmem hb hid]

end FunctionDef

/-! ## Pieces of the body -/

/-- The instructions of a segment with their lines. -/
def Segment.insts : Segment → List (Inst × List Line)
  | .block _ _ insts => insts
  | _ => []

/-- The label of a block and the jump back name blocks. -/
def Segment.Shaped (opts : GenerationOpts) : Segment → Prop
  | .header label => ∃ id, label = [.label (.block id)]
  | .block id label _ => label = [] ∨ label = [.label (.block id)]
  | .back jump => ∃ id, jump = gotoToken opts (.block id)

/-- The body does not end with the label of a header. -/
def Segment.isClosed : Segment → Bool
  | .header _ => false
  | _ => true

/-- The segments have the blocks `ids` in this order, with their labels and instructions. -/
structure PrintsBody (opts : GenerationOpts) (f : FunctionDef) (vaArgNum : ℕ) (ids : List ℕ)
    (w w' : Writer) (segs : List Segment) : Prop
    extends PrintsOps f.IsBlock (ids.map .block) (ids.flatMap f.ops) w w'
      (segs.flatMap Segment.lines) where
  printed : segs.filterMap Segment.printed = ids.map fun id => (id, f.insts id)
  hasLabel : ∀ id ∈ ids, .block id ∈ labels (segs.flatMap Segment.lines)
  calls : List.Forall₂ StoresJump (setjmpCalls (segs.flatMap Segment.insts))
    (jumps w (ids.flatMap f.ops))
  made : ∀ p ∈ segs.flatMap Segment.insts, MadeBy opts f vaArgNum w p
  shaped : ∀ seg ∈ segs, seg.Shaped opts
  closed : ∀ seg ∈ segs.getLast?, seg.isClosed

/-- The label of none of the blocks has just been printed. -/
def Fresh (w : Writer) (ids : List ℕ) : Prop := ∀ id ∈ ids, w.lastLabel ≠ some (.block id)

theorem Fresh.mono {w : Writer} {ids ids' : List ℕ} (h : Fresh w ids) (hsub : ids' ⊆ ids) :
    Fresh w ids' := fun id hid => h id (hsub hid)

namespace PrintsBody

variable {opts : GenerationOpts} {f : FunctionDef} {vaArgNum : ℕ} {ids ids' : List ℕ}
  {w w₁ w₂ : Writer} {segs segs' : List Segment}

theorem nil (w : Writer) : PrintsBody opts f vaArgNum [] w w [] :=
  ⟨(PrintsOnly.plain (by simp [Plain])).toOps, rfl, by simp, .nil, by simp, by simp, by simp⟩

theorem append (h₁ : PrintsBody opts f vaArgNum ids w w₁ segs)
    (h₂ : PrintsBody opts f vaArgNum ids' w₁ w₂ segs')
    (hdisj : ids.Disjoint ids') :
    PrintsBody opts f vaArgNum (ids ++ ids') w w₂ (segs ++ segs') := by
  have hops := h₁.toPrintsOps.trans h₂.toPrintsOps (by simp [OldLabel]) (by
    intro l hl hl'
    obtain ⟨id, hid, rfl⟩ := List.mem_map.mp hl
    obtain ⟨id', hid', heq⟩ := List.mem_map.mp hl'
    cases heq
    exact hdisj hid' hid)
  rw [← List.map_append, ← List.flatMap_append, ← List.flatMap_append] at hops
  refine ⟨hops, ?_, fun id hid => ?_, ?_, fun p hp => ?_, fun seg hseg => ?_, fun seg hseg => ?_⟩
  · rw [List.filterMap_append, h₁.printed, h₂.printed, List.map_append]
  · rw [List.flatMap_append, labels_append]
    exact List.mem_append.mpr ((List.mem_append.mp hid).imp (h₁.hasLabel id) (h₂.hasLabel id))
  · have hcalls := h₂.calls
    rw [h₁.locals.jumps] at hcalls
    simpa [setjmpCalls, jumps_append] using List.rel_append h₁.calls hcalls
  · rw [List.flatMap_append] at hp
    exact (List.mem_append.mp hp).elim (h₁.made p) fun hp =>
      (h₂.made p hp).mono fun v n hv => h₁.has hv
  · exact (List.mem_append.mp hseg).elim (h₁.shaped seg) (h₂.shaped seg)
  · rw [List.getLast?_append, Option.mem_def, Option.or_eq_some_iff] at hseg
    rcases hseg with hseg | ⟨-, hseg⟩
    · exact h₂.closed seg hseg
    · exact h₁.closed seg hseg

theorem fresh (h : PrintsBody opts f vaArgNum ids w w₁ segs) (hfresh : Fresh w ids')
    (hdisj : ids.Disjoint ids') : Fresh w₁ ids' := by
  intro id hid
  refine h.toPrints.last_ne (hfresh id hid) trivial fun hl => ?_
  obtain ⟨id', hid', heq⟩ := List.mem_map.mp hl
  cases heq
  exact hdisj hid' hid

end PrintsBody

section blocks

variable {f : FunctionDef} {opts : GenerationOpts} {vaArgNum : ℕ} (hf : f.WellFormed)

include hf

theorem printBasicBlock_last {id : ℕ} {b : BasicBlock} (hb : f.block id = some b) {w w' : Writer}
    (hw : f.Ready vaArgNum w) (hlast : w.lastLabel = some (.block id)) {seg : Segment}
    (hprint : printBasicBlock opts f vaArgNum b w = some (seg, w')) :
    seg.printed = some (id, f.insts id) ∧ PrintsOps f.IsBlock [] (f.ops id) w w' seg.lines ∧
      List.Forall₂ StoresJump (setjmpCalls seg.insts) (jumps w (f.ops id)) ∧
      (∀ p ∈ seg.insts, MadeBy opts f vaArgNum w p) ∧ seg.Shaped opts ∧ seg.isClosed := by
  obtain ⟨hmem, rfl⟩ := FunctionDef.block_mem hb
  have hinsts : f.insts b.id = b.insts := by simp [FunctionDef.insts, hb]
  obtain ⟨label, w₁, hlabel, h₁⟩ := emit_bind_eq_some hprint
  obtain ⟨code, w₂, hcode, h₂⟩ := emit_bind_eq_some h₁
  cases h₂
  simp only [printLabel, emit_bind, emit_get, Option.bind_some, hlast, if_true] at hlabel
  cases hlabel
  obtain ⟨heq, hops, hcalls, hmade⟩ := printInsts_prints hf hmem (fun _ h => h) hw hcode
  refine ⟨by simp [Segment.printed, heq, hinsts], ?_⟩
  unfold FunctionDef.ops
  rw [hinsts]
  exact ⟨hops, hcalls, hmade, .inl rfl, rfl⟩

theorem printBasicBlock_prints {id : ℕ} {b : BasicBlock} (hb : f.block id = some b)
    {w w' : Writer} (hw : f.Ready vaArgNum w) (hfresh : Fresh w [id]) {seg : Segment}
    (hprint : printBasicBlock opts f vaArgNum b w = some (seg, w')) :
    PrintsBody opts f vaArgNum [id] w w' [seg] := by
  obtain ⟨hmem, rfl⟩ := FunctionDef.block_mem hb
  obtain ⟨label, w₁, hlabel, h₁⟩ := emit_bind_eq_some hprint
  obtain ⟨code, w₂, hcode, h₂⟩ := emit_bind_eq_some h₁
  cases h₂
  have hinsts : f.insts b.id = b.insts := by simp [FunctionDef.insts, hb]
  obtain ⟨rfl, rfl, hprints⟩ := Prints.label (T := f.IsBlock) (l := .block b.id) trivial
    (hfresh b.id List.mem_cons_self) hlabel
  have hfirst : PrintsOps f.IsBlock [.block b.id] [] w { w with lastLabel := some (.block b.id) }
      (lines [.label (.block b.id)]) :=
    ⟨hprints, ⟨rfl, rfl⟩, fun n => by simp [Line.labels, jumps]⟩
  obtain ⟨heq, hops, hcalls, hmade⟩ :=
    printInsts_prints hf hmem (fun _ h => h) (hw.afterOps hfirst) hcode
  rw [hfirst.locals.jumps] at hcalls
  refine ⟨?_, by simp [Segment.printed, heq, hinsts], by simp [Segment.lines, Line.labels], ?_,
    fun p hp => (hmade p (by simpa [Segment.insts] using hp)).mono fun v n hv => hfirst.has hv,
    by simp [Segment.Shaped], by simp [Segment.isClosed]⟩
  · have hall := hfirst.append hops
    simpa [FunctionDef.ops, hinsts, Segment.lines] using hall
  · simpa [FunctionDef.ops, hinsts, Segment.insts] using hcalls

/-! ## Loops -/

/-- The block `b` of a loop, given what is printed for the loops in it. -/
theorem printLoopBlock_prints {inner : ℕ → Emit (List Segment)} {order : ℕ → List ℕ} {l b : ℕ}
    (hinner : ∀ {c}, f.loopInfo.IsLoop c → f.loopInfo.parentLoop c = some l →
      ∀ {w w' segs}, f.Ready vaArgNum w → Fresh w (order c) → inner c w = some (segs, w') →
        PrintsBody opts f vaArgNum (order c) w w' segs)
    {w w' : Writer} (hw : f.Ready vaArgNum w)
    (hfresh : Fresh w (f.loopInfo.blockOrder order l b)) {segs : List Segment}
    (hprint : printLoopBlock opts f vaArgNum inner l b w = some (segs, w')) :
    PrintsBody opts f vaArgNum (f.loopInfo.blockOrder order l b) w w' segs := by
  unfold printLoopBlock at hprint
  unfold LoopInfo.blockOrder at hfresh ⊢
  cases hb : f.block b with
  | none =>
      rw [hb] at hprint
      cases hprint
  | some block =>
      cases hm : f.loopInfo.loopFor b with
      | none =>
          rw [hb, hm] at hprint
          cases hprint
      | some blockLoop =>
          rw [hb, hm] at hprint
          rw [hm] at hfresh
          simp only at hprint hfresh ⊢
          split_ifs at hprint hfresh ⊢ with heq hchild
          · obtain ⟨seg, w₁, hseg, h₁⟩ := emit_bind_eq_some hprint
            cases h₁
            exact printBasicBlock_prints hf hb hw hfresh hseg
          · exact hinner (.of_loopFor hm) hchild.2.symm hw hfresh hprint
          · cases hprint
            exact .nil w

theorem printLoopBlocks_prints {inner : ℕ → Emit (List Segment)} {order : ℕ → List ℕ} {l : ℕ}
    (hinner : ∀ {c}, f.loopInfo.IsLoop c → f.loopInfo.parentLoop c = some l →
      ∀ {w w' segs}, f.Ready vaArgNum w → Fresh w (order c) → inner c w = some (segs, w') →
        PrintsBody opts f vaArgNum (order c) w w' segs)
    {bs : List ℕ} (hnodup : (bs.flatMap (f.loopInfo.blockOrder order l)).Nodup) {w w' : Writer}
    (hw : f.Ready vaArgNum w) (hfresh : Fresh w (bs.flatMap (f.loopInfo.blockOrder order l)))
    {segs : List Segment}
    (hprint : printLoopBlocks opts f vaArgNum inner l bs w = some (segs, w')) :
    PrintsBody opts f vaArgNum (bs.flatMap (f.loopInfo.blockOrder order l)) w w' segs := by
  induction bs generalizing w segs with
  | nil =>
      cases hprint
      exact .nil _
  | cons b bs ih =>
      obtain ⟨first, w₁, hfirst, h₁⟩ := emit_bind_eq_some hprint
      obtain ⟨rest, w₂, hrest, h₂⟩ := emit_bind_eq_some h₁
      cases h₂
      rw [List.flatMap_cons] at hnodup hfresh ⊢
      have hdisj := List.disjoint_of_nodup_append hnodup
      have hb := printLoopBlock_prints hf hinner hw
        (hfresh.mono (List.subset_append_left _ _)) hfirst
      exact hb.append (ih hnodup.of_append_right (hw.afterOps hb.toPrintsOps)
        (hb.fresh (hfresh.mono (List.subset_append_right _ _)) hdisj) hrest) hdisj

theorem printsBody_back {l : ℕ} (hl : f.loopInfo.IsLoop l) (w : Writer) :
    PrintsBody opts f vaArgNum [] w w [.back (gotoToken opts (.block (f.loopInfo.header l)))] := by
  obtain ⟨b, hb, hid⟩ := List.mem_map.mp
    (hf.loops.blocks_subset hl (hf.loops.header_mem hl))
  have hgoto : PrintsOnly f.IsBlock w w
      [.instr (gotoToken opts (.block (f.loopInfo.header l)))] := by
    refine ⟨⟨.refl w, .inl rfl, ?_, by simp, ?_, ?_, by simp [gotoToken, Line.slotEnds]⟩, rfl, rfl⟩
    · simp [gotoToken, Line.labels]
    · simp [gotoToken, Line.labels]
    · simpa [gotoToken, Line.labels, Line.targets] using ⟨b, hb, by rw [hid]⟩
  exact ⟨by simpa [Segment.lines] using hgoto.toOps, rfl, by simp, .nil,
    by simp [Segment.insts], by simpa [Segment.Shaped] using ⟨_, rfl⟩, by simp [Segment.isClosed]⟩

theorem printLoop_prints {n l : ℕ} (hl : f.loopInfo.IsLoop l)
    (hn : (f.loopInfo.blocks l).length ≤ n) {w w' : Writer} (hw : f.Ready vaArgNum w)
    (hfresh : Fresh w (f.loopInfo.loopOrder n l)) {segs : List Segment}
    (hprint : printLoop opts f vaArgNum n l w = some (segs, w')) :
    PrintsBody opts f vaArgNum (f.loopInfo.loopOrder n l) w w' segs := by
  induction n generalizing l w w' segs with
  | zero => cases hprint
  | succ n ih =>
      have hnodup := (hf.loops.loopOrder_spec hl hn).1
      obtain ⟨rest, hblocks⟩ := hf.loops.blocks_eq l hl
      have hheader := hf.loops.loopFor_header l hl
      have horder : f.loopInfo.loopOrder (n + 1) l = [f.loopInfo.header l] ++
          rest.flatMap (f.loopInfo.blockOrder (f.loopInfo.loopOrder n) l) := by
        rw [LoopInfo.loopOrder, hblocks, List.flatMap_cons, LoopInfo.blockOrder, hheader]
        simp
      rw [horder] at hnodup hfresh ⊢
      have hdisj := List.disjoint_of_nodup_append hnodup
      obtain ⟨label, w₁, hlabel, h₁⟩ := emit_bind_eq_some hprint
      obtain ⟨body, w₂, hbody, h₂⟩ := emit_bind_eq_some h₁
      cases h₂
      rw [hblocks] at hbody
      obtain ⟨first, w₃, hfirst, h₃⟩ := emit_bind_eq_some hbody
      obtain ⟨others, w₄, hothers, h₄⟩ := emit_bind_eq_some h₃
      cases h₄
      obtain ⟨rfl, rfl, hprints⟩ := Prints.label (T := f.IsBlock) (l := .block _) trivial
        (hfresh _ (List.mem_append_left _ List.mem_cons_self)) hlabel
      have hann : PrintsOps f.IsBlock [.block (f.loopInfo.header l)] [] w _
          (lines [.label (.block (f.loopInfo.header l))]) :=
        ⟨hprints, ⟨rfl, rfl⟩, fun n => by simp [Line.labels, jumps]⟩
      -- the label of the header is not printed again
      have hhead : PrintsBody opts f vaArgNum [f.loopInfo.header l] w w₃
          (.header [.label (.block (f.loopInfo.header l))] :: first) := by
        unfold printLoopBlock at hfirst
        cases hb : f.block (f.loopInfo.header l) with
        | none =>
            rw [hb] at hfirst
            cases hfirst
        | some block =>
            rw [hb, hheader] at hfirst
            simp only [if_true] at hfirst
            obtain ⟨seg, w₅, hseg, h₅⟩ := emit_bind_eq_some hfirst
            cases h₅
            obtain ⟨hprinted, hops, hcalls, hmade, hshaped, hclosed⟩ :=
              printBasicBlock_last hf hb (hw.afterOps hann) rfl hseg
            have hall := hann.append hops
            rw [hann.locals.jumps] at hcalls
            refine ⟨by simpa [Segment.lines] using hall, ?_, by simp [Segment.lines, Line.labels],
              by simpa [Segment.insts] using hcalls, fun p hp =>
                (hmade p (by simpa [Segment.insts] using hp)).mono fun v n hv => hann.has hv,
              by simpa [Segment.Shaped] using hshaped, by simpa using hclosed⟩
            simp only [List.filterMap_cons, hprinted, List.filterMap_nil, List.map_cons,
              List.map_nil]
            rfl
      have hrest := printLoopBlocks_prints hf (fun hc hp _ _ _ hw hfresh hprint => by
        have hlt := hf.loops.length_lt hc hp
        exact ih hc (by omega) hw hfresh hprint) hnodup.of_append_right
        (hw.afterOps hhead.toPrintsOps)
        (hhead.fresh (hfresh.mono (List.subset_append_right _ _)) hdisj) hothers
      have hback : PrintsBody opts f vaArgNum [] w' w' _ := printsBody_back hf hl w'
      have hall := (hhead.append hrest hdisj).append hback (by simp)
      simpa using hall

/-! ## The body -/

theorem printBodyBlock_prints {b : BasicBlock} (hb : b ∈ f.blocks) {w w' : Writer}
    (hw : f.Ready vaArgNum w) (hfresh : Fresh w (f.loopInfo.topOrder f.blocks.length b.id))
    {segs : List Segment} (hprint : printBodyBlock opts f vaArgNum b w = some (segs, w')) :
    PrintsBody opts f vaArgNum (f.loopInfo.topOrder f.blocks.length b.id) w w' segs := by
  unfold printBodyBlock at hprint
  unfold LoopInfo.topOrder at hfresh ⊢
  cases hm : f.loopInfo.loopFor b.id with
  | none =>
      rw [hm] at hprint hfresh
      obtain ⟨seg, w₁, hseg, h₁⟩ := emit_bind_eq_some hprint
      cases h₁
      exact printBasicBlock_prints hf (hf.block_eq hb) hw hfresh hseg
  | some l =>
      rw [hm] at hprint hfresh
      simp only at hprint hfresh ⊢
      split_ifs at hprint hfresh ⊢
      · have hl : f.loopInfo.IsLoop l := .of_loopFor hm
        have hlength := (List.subperm_of_subset (hf.loops.nodup l hl)
          (hf.loops.blocks_subset hl)).length_le
        rw [List.length_map] at hlength
        exact printLoop_prints hf hl hlength hw hfresh hprint
      · cases hprint
        exact .nil w

theorem printBodyBlocks_prints {bs : List BasicBlock} (hbs : ∀ b ∈ bs, b ∈ f.blocks)
    (hnodup : ((bs.map BasicBlock.id).flatMap (f.loopInfo.topOrder f.blocks.length)).Nodup)
    {w w' : Writer} (hw : f.Ready vaArgNum w)
    (hfresh : Fresh w ((bs.map BasicBlock.id).flatMap (f.loopInfo.topOrder f.blocks.length)))
    {segs : List Segment} (hprint : printBodyBlocks opts f vaArgNum bs w = some (segs, w')) :
    PrintsBody opts f vaArgNum ((bs.map BasicBlock.id).flatMap
      (f.loopInfo.topOrder f.blocks.length)) w w'
      segs := by
  induction bs generalizing w segs with
  | nil =>
      cases hprint
      exact .nil _
  | cons b bs ih =>
      obtain ⟨first, w₁, hfirst, h₁⟩ := emit_bind_eq_some hprint
      obtain ⟨rest, w₂, hrest, h₂⟩ := emit_bind_eq_some h₁
      cases h₂
      rw [List.map_cons, List.flatMap_cons] at hnodup hfresh ⊢
      have hdisj := List.disjoint_of_nodup_append hnodup
      have hb := printBodyBlock_prints hf (hbs b List.mem_cons_self) hw
        (hfresh.mono (List.subset_append_left _ _)) hfirst
      exact hb.append (ih (fun b' hb' => hbs b' (List.mem_cons_of_mem b hb'))
        hnodup.of_append_right (hw.afterOps hb.toPrintsOps)
        (hb.fresh (hfresh.mono (List.subset_append_right _ _)) hdisj) hrest) hdisj

/-- The blocks come in the order of the loops. -/
theorem printFunctionBody_prints {w w' : Writer} (hw : f.Ready vaArgNum w)
    (hfresh : ∀ id, w.lastLabel ≠ some (.block id)) {segs : List Segment}
    (hprint : printFunctionBody opts f vaArgNum w = some (segs, w')) :
    PrintsBody opts f vaArgNum (f.loopInfo.bodyOrder (f.blocks.map BasicBlock.id)) w w' segs := by
  have hperm := hf.loops.bodyOrder_perm hf.ids
  unfold LoopInfo.bodyOrder at hperm ⊢
  rw [List.length_map] at hperm ⊢
  exact printBodyBlocks_prints hf (fun _ h => h) (hperm.nodup_iff.mpr hf.ids) hw
    (fun id _ => hfresh id) hprint

end blocks

end Llxvm.Backend
