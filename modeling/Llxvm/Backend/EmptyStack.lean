import Llxvm.Backend.BalancedCode
import Llxvm.Backend.Emission
import Llxvm.Backend.RewrittenRuns

/-!
# Empty stacks at the labels of blocks

Every path through a method comes to the label of a block with an empty operand stack, if every
constant is loaded as a value of the category of its type and every direct call takes what is pushed
for it.  The paths are those of the stack effects, and every run of the method is one of them.
-/

namespace Llxvm.Backend

open Llxvm.Jvm Llxvm.Runtime StackShapes

theorem jumps_subset_targets (l : Line) : lineEffects.jumps l ⊆ l.targets := by
  cases l with
  | instr i => cases i <;> exact fun _ ht => ht
  | lookupswitch cs d => exact fun _ ht => ht
  | _ => exact fun _ ht => by cases ht

theorem catching_of_isKnown {l : Line} (h : l.isKnown) : lineEffects.catching l = none := by
  cases l <;> first | rfl | cases h

/-! ## Runs -/

section runs

variable {ρ : Type}

/-- Calls take the arguments that their descriptors name and leave their results, and nothing
follows a return. -/
structure LineEnv.KeepsCategories (env : LineEnv ρ) : Prop where
  instr : env.toEnv.KeepsCategories
  call : ∀ callee c c', env.call callee c (.next c') →
    ∃ s, c.categories = (Line.call callee).pops ++ s ∧
      c'.categories = (Line.call callee).pushes ++ s
  simple : ∀ text c c', (Line.simple text).isKnown → ¬ env.simple text c (.next c')

/-- A line whose effect is known, or the directive for the handler. -/
def Line.IsTracked (l : Line) : Prop :=
  l.isKnown ∨ l = .catching .beginMethod .catchJump .catchJump

variable {env : LineEnv ρ} {all : List Line}

theorem textLabels_methodMachine (ls : List Line) :
    (methodMachine env).labels ls = textLabels lineEffects ls := by
  rw [labels_methodMachine, textLabels_eq]

theorem label_methodMachine {l : Line} {t : Label} (h : (methodMachine env).label l = some t) :
    lineEffects.label l = some t := by
  cases l with
  | instr i => cases i <;> exact h
  | _ => cases h

theorem covers_of_methodMachine {rest : List Line} {handler : Label}
    (h : (methodMachine env).Covers all rest handler) : Covers lineEffects all rest handler := by
  obtain ⟨c, hc, start, stop, hcatching, pre, hall, hstart, hstop⟩ := h
  rw [textLabels_methodMachine] at hstart hstop
  refine ⟨c, hc, start, stop, ?_, pre, hall, hstart, hstop⟩
  cases c with
  | catching start stop handler => exact hcatching
  | _ => cases hcatching

variable (henv : env.KeepsCategories)

include henv

theorem changes_of_next {l : Line} (hl : l.IsTracked) {c c' : Config}
    (h : (methodMachine env).exec l c (.next c')) : l.falls = true ∧
      ∃ s, c.categories = l.pops ++ s ∧ c'.categories = l.pushes ++ s := by
  cases l with
  | instr i =>
      have hstep : step env.toEnv i c = .next c' := by
        have hexec : stepOutcome (step env.toEnv i c) =
            some (.next c' : LabelledCode.Outcome Label Config Throwable ρ) := h
        cases hs : step env.toEnv i c <;> rw [hs] at hexec <;> cases hexec
        rfl
      exact step_next henv.instr hstep
  | call callee =>
      obtain ⟨x, hx, heq⟩ := h
      cases x <;> cases heq
      exact ⟨rfl, henv.call callee c _ hx⟩
  | simple text =>
      obtain ⟨x, hx, heq⟩ := h
      cases x <;> cases heq
      have hknown := hl.resolve_right (by simp)
      exact (henv.simple text c _ hknown hx).elim
  | lookupswitch cs d => rcases hl with hl | hl <;> cases hl
  | catching start stop handler =>
      cases h
      exact ⟨rfl, c.categories, rfl, rfl⟩

omit henv in
theorem changes_of_jump {l : Line} (hl : l.IsTracked) {c c' : Config} {t : Label}
    (h : (methodMachine env).exec l c (.jump t c')) : t ∈ l.jumps ∧
      c.categories = l.pops ++ c'.categories := by
  cases l with
  | instr i =>
      have hstep : step env.toEnv i c = .jump t c' := by
        have hexec : stepOutcome (step env.toEnv i c) =
            some (.jump t c' : LabelledCode.Outcome Label Config Throwable ρ) := h
        cases hs : step env.toEnv i c <;> rw [hs] at hexec <;> cases hexec
        rfl
      obtain ⟨ht, s, hc, rfl⟩ := step_jump hstep
      exact ⟨ht, hc⟩
  | call callee =>
      obtain ⟨x, -, heq⟩ := h
      cases x <;> cases heq
  | simple text =>
      obtain ⟨x, -, heq⟩ := h
      cases x <;> cases heq
  | lookupswitch cs d => rcases hl with hl | hl <;> cases hl
  | catching start stop handler => cases h

/-- A step of the method changes the stack as the effects of its lines say. -/
theorem step_of_methodMachine {l : Line} {rest : List Line} {c : Config} {tr : List Line}
    {q : List Line × Config} (hl : l.IsTracked) (hrest : l :: rest <:+ all)
    (h : (methodMachine env).Step all (l :: rest, c) tr q) :
    Step lineEffects all (l :: rest, c.categories) (q.1, q.2.categories) ∧ q.1 <:+ all := by
  cases h with
  | @next _ _ _ c' hexec =>
      obtain ⟨hfalls, s, hc, hc'⟩ := changes_of_next henv hl hexec
      refine ⟨?_, (List.suffix_cons l rest).trans hrest⟩
      simp only [hc']
      exact .fall hc hfalls
  | jump hexec hat =>
      obtain ⟨ht, hc⟩ := changes_of_jump hl hexec
      obtain ⟨hsuffix, l', rest', rfl, hlabel⟩ := hat
      exact ⟨.jump hc ht (label_methodMachine hlabel) hsuffix, hsuffix⟩
  | @throw _ _ _ _ _ c' e handler hexec hcovers hcaught hat =>
      obtain ⟨hsuffix, l', rest', rfl, hlabel⟩ := hat
      have hstack : c'.categories = lineEffects.caught := by
        cases e <;> cases hcaught
        rfl
      rw [hstack]
      exact ⟨.throw (covers_of_methodMachine hcovers) (label_methodMachine hlabel) hsuffix, hsuffix⟩

/-- By induction on the run: its positions are those of a path, with the categories of the values
that are on the stack. -/
theorem leads_of_path (hall : ∀ l ∈ all, l.IsTracked) {p q : List Line × Config} {tr : List Line}
    (hpath : (methodMachine env).Path all p tr q) (hp : p.1 <:+ all) :
    Leads lineEffects all (p.1, p.2.categories) (q.1, q.2.categories) := by
  induction hpath with
  | refl p => exact .refl
  | @head p q r _ _ hstep _ ih =>
      obtain ⟨rest, c⟩ := p
      cases rest with
      | nil => cases hstep
      | cons l rest =>
          have hl := hall l (hp.subset List.mem_cons_self)
          obtain ⟨hfirst, hq⟩ := step_of_methodMachine henv hl hp hstep
          exact .head hfirst (ih hq)

end runs

/-! ## Bodies -/

/-- The block ends with a return or a branch, and has no other one. -/
def BasicBlock.Terminated (b : BasicBlock) : Prop :=
  ∃ insts last, b.insts = insts ++ [last] ∧ last.op.isTerminator ∧
    ∀ inst ∈ insts, inst.op.isTerminator = false

/-- A function that the verifier of LLVM accepts, all instructions of which are core ones. -/
structure FunctionDef.Checked (f : FunctionDef) : Prop where
  insts : ∀ b ∈ f.blocks, ∀ inst ∈ b.insts, inst.Checked
  phis : ∀ b ∈ f.blocks, PhisTyped b.phis
  terminated : ∀ b ∈ f.blocks, b.Terminated

theorem Ready.lastOld {vars : List Local} {w : Writer} (h : Ready vars w) : w.LastOld := h.last

theorem FunctionDef.Checked.phisTyped {f : FunctionDef} (h : f.Checked) (id : ℕ) :
    PhisTyped (f.branches.phis id) :=
  f.forall_phis (P := PhisTyped) (by simp [PhisTyped]) h.phis id

/-- The text of a block leaves the stack empty wherever it jumps to. -/
theorem flowsTo_insts {opts : GenerationOpts} {f : Function} {insts : List Inst} {last : Inst}
    (hlast : last.op.isTerminator)
    (hinsts : ∀ inst ∈ insts, inst.op.isTerminator = false) {code : List (Inst × List Line)}
    (heq : code.map Prod.fst = insts ++ [last]) (htext : ∀ p ∈ code, InstText opts f p.1 p.2)
    (hfits : ∀ p ∈ code, p.1.op.Fits opts f) (b : List Category) :
    FlowsTo (code.flatMap Prod.snd) [] b := by
  induction insts generalizing code with
  | nil =>
      obtain ⟨p, rfl, rfl⟩ := List.map_eq_singleton_iff.mp heq
      rw [List.flatMap_cons, List.flatMap_nil, List.append_nil]
      refine (htext p List.mem_cons_self).flows (hfits p List.mem_cons_self) b fun hno => ?_
      cases hlast.symm.trans hno
  | cons inst insts ih =>
      obtain ⟨p, rest, rfl, rfl, hrest⟩ := List.map_eq_cons_iff.mp heq
      rw [List.flatMap_cons]
      have hfirst := (htext p List.mem_cons_self).flows (hfits p List.mem_cons_self) [] fun _ => rfl
      refine hfirst.append ?_
      exact ih (fun i hi => hinsts i (List.mem_cons_of_mem _ hi)) hrest
        (fun q hq => htext q (List.mem_cons_of_mem p hq))
        fun q hq => hfits q (List.mem_cons_of_mem p hq)

theorem flowsTo_segs {segs : List Segment}
    (hsegs : ∀ seg ∈ segs, ∀ b, (seg.isClosed = false → b = []) → FlowsTo seg.lines [] b)
    (hclosed : ∀ seg ∈ segs.getLast?, seg.isClosed) {b : List Category} (hb : segs = [] → b = []) :
    FlowsTo (segs.flatMap Segment.lines) [] b := by
  induction segs with
  | nil =>
      rw [hb rfl]
      exact .nil
  | cons seg segs ih =>
      rw [List.flatMap_cons]
      cases hsegs' : segs with
      | nil =>
          rw [List.flatMap_nil, List.append_nil]
          refine hsegs seg List.mem_cons_self b fun hno => ?_
          cases (hclosed seg (by simp [hsegs'])).symm.trans hno
      | cons next rest =>
          rw [← hsegs']
          refine (hsegs seg List.mem_cons_self [] fun _ => rfl).append ?_
          refine ih (fun s hs => hsegs s (List.mem_cons_of_mem seg hs)) (fun s hs => ?_)
            fun hnil => by cases hsegs'.symm.trans hnil
          apply hclosed s
          rw [hsegs'] at hs ⊢
          rwa [List.getLast?_cons_cons]

section body

variable {opts : GenerationOpts} {f : FunctionDef} {vaArgNum : ℕ} {w w' : Writer}
  {segs : List Segment} (hf : f.WellFormed) (h : PrintsBody opts f vaArgNum f.order w w' segs)
  (hchecked : f.Checked)

include hf h hchecked

theorem PrintsBody.instText {p : Inst × List Line} (hp : p ∈ segs.flatMap Segment.insts) :
    InstText opts f.branches p.1 p.2 := by
  obtain ⟨b, hb, hinst⟩ := h.inst_mem hf hp
  obtain ⟨w₁, w₂, hready, -, hprint⟩ := h.made p hp
  exact (emits_printInst hchecked.phisTyped (hchecked.insts b hb p.1 hinst)
    hready.toReady.lastOld hprint).2

theorem PrintsBody.balanced {p : Inst × List Line} (hp : p ∈ segs.flatMap Segment.insts)
    (hfits : p.1.op.Fits opts f.branches) : Balanced lineEffects p.2 := by
  obtain ⟨b, hb, hinst⟩ := h.inst_mem hf hp
  obtain ⟨w₁, w₂, hready, -, hprint⟩ := h.made p hp
  have htext := h.instText hf hchecked hp
  have hprints := (printInst_prints hf hb hinst hready hprint).1
  refine (htext.flows hfits [] fun _ => rfl).balanced ?_ ?_
    fun l hl => catching_of_isKnown (htext.known l hl)
  · rw [textLabels_eq]
    exact hprints.nodup
  · intro l hl t ht hout
    have htarget : t ∈ targets p.2 := List.mem_flatMap.mpr ⟨l, hl, jumps_subset_targets l ht⟩
    rw [textLabels_eq] at hout
    obtain ⟨b', -, rfl⟩ := (hprints.defined t htarget).resolve_left hout
    rfl

theorem PrintsBody.flowsTo (hfits : ∀ b ∈ f.blocks, ∀ inst ∈ b.insts, inst.op.Fits opts f.branches)
    {b : List Category} (hb : segs = [] → b = []) : FlowsTo (segs.flatMap Segment.lines) [] b := by
  refine flowsTo_segs (fun seg hseg b hb => ?_) h.closed hb
  have hlabel : ∀ id, FlowsTo [.instr (.label (.block id))] [] [] := fun id => Flows.label rfl rfl
  have hshaped := h.shaped seg hseg
  cases seg with
  | header label =>
      obtain ⟨id, rfl⟩ := hshaped
      rw [hb rfl]
      exact hlabel id
  | back jump =>
      obtain ⟨id, rfl⟩ := hshaped
      exact (jumps_goto rfl).flows trivial b
  | block id label insts =>
      obtain ⟨block, hblock, heq⟩ := h.exists_block hf hseg
      obtain ⟨before, last, hinsts, hlast, hbefore⟩ := hchecked.terminated block hblock
      have hmem : ∀ p ∈ insts, p ∈ segs.flatMap Segment.insts :=
        fun p hp => List.mem_flatMap.mpr ⟨_, hseg, hp⟩
      have hcode := flowsTo_insts hlast hbefore (heq.trans hinsts)
        (fun p hp => h.instText hf hchecked (hmem p hp))
        (fun p hp => hfits block hblock p.1 (heq ▸ List.mem_map_of_mem hp)) b
      rcases hshaped with rfl | rfl
      · exact hcode
      · exact (hlabel id).append hcode

end body

/-! ## Prologues and handlers -/

theorem leaves_storeConstants (vars : List (Prefix × Form × ℕ)) :
    Leaves True (lines (storeConstants vars)) [] [] := by
  induction vars with
  | nil => exact .nil
  | cons v vars ih =>
      have hconst : Leaves True (lines [.const v.1 0]) [] [v.1.category] := leaves_instr rfl
      have hall := leaves_append (leaves_append hconst (leaves_store v.1 v.2.1 v.2.2)) ih
      rwa [← lines_append, ← lines_append] at hall

theorem initJumps_eq (usedRegisters numJumps : ℕ) : initJumps usedRegisters numJumps =
    storeConstants ((List.range numJumps).map fun i => (.i, .plain, usedRegisters + i)) := by
  rw [storeConstants, List.flatMap_map]
  rfl

theorem Leaves.flows {ls : List Line} {i o : List Category} (h : Leaves True ls i o) :
    FlowsTo ls i o :=
  (h.goes.straight trivial).flows

/-- The handler is entered with the exception on the stack. -/
theorem flowsTo_handlerLines (jumpVarNum : ℕ) {numJumps : ℕ} (h : numJumps ≠ 0)
    (b : List Category) : FlowsTo (handlerLines jumpVarNum numJumps) [.one] b := by
  have hcatching : FlowsTo [.catching .beginMethod .catchJump .catchJump] ([] ++ [.one]) [.one] :=
    Flows.line rfl (by simp [lineEffects, Line.jumps]) fun _ => rfl
  have hlabel : FlowsTo [.instr (.label .catchJump)] [.one] [.one] := Flows.label rfl rfl
  have hvalue : Leaves True (lines [.store .a .plain jumpVarNum, .load .a .plain jumpVarNum,
      .getfield .value]) [.one] [.one] := leaves_code rfl
  have htest : ∀ i, FlowsTo (lines [.load .a .plain jumpVarNum, .getfield .id, .load .i .plain i,
      .if_icmpeq (.setjmp i)]) [.one] [.one] := by
    intro i
    have hoperands : Leaves True (lines [.load .a .plain jumpVarNum, .getfield .id,
        .load .i .plain i]) [.one] [.one, .one, .one] := leaves_code rfl
    have hbranch : FlowsTo [.instr (.if_icmpeq (.setjmp i))] ([.one, .one] ++ [.one]) [.one] := by
      refine Flows.line rfl (fun t ht => ?_) fun _ => rfl
      obtain rfl := List.mem_singleton.mp ht
      rfl
    exact hoperands.flows.append hbranch
  have htests : FlowsTo (lines (catchTests jumpVarNum numJumps)) [.one] [.one] := by
    unfold catchTests
    induction List.range' (jumpVarNum - numJumps) numJumps with
    | nil => exact .nil
    | cons i is ih =>
        rw [List.flatMap_cons, lines_append]
        exact (htest i).append ih
  have hreload : Leaves True (lines [.pop, .load .a .plain jumpVarNum]) [.one] [.one] :=
    leaves_code rfl
  have hthrow : FlowsTo [.instr .athrow] ([.one] ++ []) b :=
    Flows.line rfl (by simp [lineEffects, Line.jumps, Instr.jumps]) fun hfalls => by cases hfalls
  rw [handlerLines, if_neg h]
  have hall := ((((hcatching.append hlabel).append hvalue.flows).append htests).append
    hreload.flows).append hthrow
  simpa using hall

/-! ## Methods -/

/-- Every path, and every run, comes to a block with an empty stack, and paths meet with equal
stacks; what is printed for an instruction takes nothing from the stack and leaves nothing. -/
structure EmptyStack (m : MethodText) : Prop where
  blocks : ∀ id rest s, Leads lineEffects m.lines (m.lines, [])
    (.instr (.label (.block id)) :: rest, s) → s = []
  insts : ∀ p ∈ m.body.flatMap Segment.insts, Balanced lineEffects p.2
  meets : ∀ rest s s', Leads lineEffects m.lines (m.lines, []) (rest, s) →
    Leads lineEffects m.lines (m.lines, []) (rest, s') → s = s'
  runs : ∀ (ρ : Type) (env : LineEnv ρ), env.KeepsCategories → ∀ locals memory tr id c,
    (methodMachine env).Reaches m.lines none ⟨locals, [], memory⟩ tr (.block id) c → c.stack = []

section method

variable {opts : GenerationOpts} {f : FunctionDef} {vaArgNum : ℕ} {w w₁ w₂ : Writer}
  {m : MethodText} (hf : f.WellFormed) (h : MethodParts opts f vaArgNum w w₁ w₂ m)
  (hchecked : f.Checked)

include h hf hchecked

theorem MethodParts.flowsTo
    (hfits : ∀ b ∈ f.blocks, ∀ inst ∈ b.insts, inst.op.Fits opts f.branches) :
    FlowsTo m.lines [] [] := by
  obtain ⟨init, hinit, hprologue⟩ := h.prologue
  obtain ⟨vars, rfl⟩ := hinit.stores
  have hbegin : FlowsTo m.prologue [] [] := by
    have hids := leaves_storeConstants
      ((List.range f.numJumps).map fun i => (.i, .plain, w₁.usedRegisters + i))
    rw [← initJumps_eq] at hids
    have hlabel : FlowsTo [.instr (.label .beginMethod)] [] [] := Flows.label rfl rfl
    have hframe : Leaves True [.instr (.invokestatic .createStackFrame)] [] [] := leaves_instr rfl
    have hall := ((leaves_append (leaves_storeConstants vars) hids).flows.append hlabel).append
      hframe.flows
    rw [hprologue]
    simpa using hall
  have hend : FlowsTo m.epilogue [] [] := by
    rw [h.epilogue]
    exact Flows.label rfl rfl
  have hmiddle : FlowsTo (m.body.flatMap Segment.lines ++ m.handler) [] [] := by
    rw [h.handler]
    by_cases hzero : f.numJumps = 0
    · rw [handlerLines, if_pos hzero, List.append_nil]
      exact h.body.flowsTo hf hchecked hfits fun _ => rfl
    · refine (h.body.flowsTo hf hchecked hfits fun hnil => ?_).append
        (flowsTo_handlerLines _ hzero [])
      -- a function that calls `setjmp` has a block
      exfalso
      have hprinted := h.body.printed
      rw [hnil, List.filterMap_nil] at hprinted
      have hempty := hf.order_perm
      rw [List.map_eq_nil_iff.mp hprinted.symm] at hempty
      have hblocks : f.blocks = [] := List.map_eq_nil_iff.mp hempty.nil_eq.symm
      exact hzero (by simp [FunctionDef.numJumps, hblocks])
  have hall := hbegin.append (hmiddle.append hend)
  rwa [MethodText.lines, ← List.append_assoc (m.body.flatMap Segment.lines)]

theorem MethodParts.isTracked : ∀ l ∈ m.lines, l.IsTracked := by
  intro l hl
  rw [MethodText.lines, List.mem_append, List.mem_append, List.mem_append] at hl
  rcases hl with hl | hl | hl | hl
  · obtain ⟨init, -, hprologue⟩ := h.prologue
    exact .inl (known_lines _ l (hprologue ▸ hl))
  · obtain ⟨seg, hseg, hl⟩ := List.mem_flatMap.mp hl
    cases seg with
    | header label => exact .inl (known_lines label l hl)
    | back jump => exact .inl (known_lines [jump] l hl)
    | block id label insts =>
        rcases List.mem_append.mp hl with hl | hl
        · exact .inl (known_lines label l hl)
        · obtain ⟨p, hp, hl⟩ := List.mem_flatMap.mp hl
          have htext := h.body.instText hf hchecked (List.mem_flatMap.mpr ⟨_, hseg, hp⟩)
          exact .inl (htext.known l hl)
  · rw [h.handler, handlerLines] at hl
    split_ifs at hl
    · cases hl
    · rcases List.mem_cons.mp hl with rfl | hl
      · exact .inr rfl
      · exact .inl (known_lines _ l hl)
  · exact .inl (known_lines _ l (h.epilogue ▸ hl))

end method

/-- A function that the verifier of LLVM accepts is emitted so that the stack is empty at every
block exactly if each instruction fits. -/
theorem printFunction_emptyStack_iff (opts : GenerationOpts) (skip : Bool) (f : FunctionDef)
    (curBasicblockMapId maxOperands : ℕ) (w w' : Writer) (m : MethodText) (hf : f.WellFormed)
    (hchecked : f.Checked) (hw : w.Reachable opts)
    (hprint : printFunction opts skip f curBasicblockMapId maxOperands w = some (m, w')) :
    EmptyStack m ↔ ∀ b ∈ f.blocks, ∀ inst ∈ b.insts, inst.op.Fits opts f.branches := by
  obtain ⟨vaArgNum, w₁, w₂, hparts, -, -⟩ := printFunction_parts hf hw.ready.2 hprint
  constructor
  · intro h b hb inst hinst
    obtain ⟨ls, hls⟩ := hparts.body.exists_text hf hb hinst
    exact (hparts.body.instText hf hchecked hls).fits (h.insts _ hls)
  · intro hfits
    have hnodup : (textLabels lineEffects m.lines).Nodup := by
      rw [textLabels_eq]
      exact hparts.nodup
    have htracked := hparts.isTracked hf hchecked
    obtain ⟨Γ, hΓ, htyped, -⟩ := (hparts.flowsTo hf hchecked hfits).exists_shapes hnodup
    have hcatch : ∀ c ∈ m.lines, ∀ s, lineEffects.catching c = some s → Γ s.2.2 = [.one] := by
      intro c hc s hs
      rcases htracked c hc with hknown | rfl
      · rw [catching_of_isKnown hknown] at hs
        cases hs
      · cases hs
        exact hΓ .catchJump [.one] rfl
    have hblocks : ∀ id rest s, Leads lineEffects m.lines (m.lines, [])
        (.instr (.label (.block id)) :: rest, s) → s = [] := by
      intro id rest s hpath
      exact ((htyped.fits hcatch hpath).label _ rfl).symm.trans (hΓ (.block id) [] rfl)
    refine ⟨hblocks, fun p hp => ?_, fun rest s s' hpath hpath' =>
      htyped.unique hcatch hpath hpath', fun ρ env henv locals memory tr id c hreaches => ?_⟩
    · obtain ⟨b, hb, hinst⟩ := hparts.body.inst_mem hf hp
      exact hparts.body.balanced hf hchecked hp (hfits b hb p.1 hinst)
    · obtain ⟨_, _, rfl, hpath, -, l, rest, rfl, hlabel⟩ := hreaches
      have hleads := leads_of_path henv htracked hpath List.suffix_rfl
      have hl : l = .instr (.label (.block id)) := by
        cases l with
        | instr i =>
            cases i <;> cases hlabel
            rfl
        | _ => cases hlabel
      subst hl
      exact List.map_eq_nil_iff.mp (hblocks id rest _ hleads)

theorem callFunction_checked {g : FunctionRef} (hparams : g.type.params = [])
    (hret : g.type.returnType = none) : (callFunction g).Checked := by
  refine ⟨fun b hb inst hmem => ?_, fun b hb => ?_, fun b hb => ?_⟩
  · simp only [callFunction, List.mem_cons, List.not_mem_nil, or_false] at hb
    rcases hb with rfl | rfl
    · rcases List.mem_cons.mp hmem with rfl | hmem
      · have hargs : ArgumentsTyped g [] := ⟨by simp, by simp [hparams], by simp [hparams]⟩
        exact ⟨rfl, ⟨rfl, hargs⟩, hret.symm⟩
      · obtain rfl := List.mem_singleton.mp hmem
        exact ⟨rfl, trivial, rfl⟩
    · obtain rfl := List.mem_singleton.mp hmem
      exact ⟨rfl, trivial, rfl⟩
  · simp only [callFunction, List.mem_cons, List.not_mem_nil, or_false] at hb
    rcases hb with rfl | rfl <;> simp [PhisTyped]
  · simp only [callFunction, List.mem_cons, List.not_mem_nil, or_false] at hb
    rcases hb with rfl | rfl
    · exact ⟨[_], _, rfl, rfl, by simp [Operation.isTerminator]⟩
    · exact ⟨[], _, rfl, rfl, by simp⟩

theorem printFunction_emptyStack_prototyped : ∃ m w',
    printFunction plainOpts false (callFunction ⟨"g", ⟨[], false, none⟩, true⟩) 0 2 .start =
      some (m, w') ∧ EmptyStack m := by
  have hprint : printFunction plainOpts false (callFunction ⟨"g", ⟨[], false, none⟩, true⟩) 0 2
      .start = some (_, _) := rfl
  refine ⟨_, _, hprint, (printFunction_emptyStack_iff plainOpts false
    (callFunction ⟨"g", ⟨[], false, none⟩, true⟩) 0 2 .start _ _ (callFunction_wellFormed _)
    (callFunction_checked rfl rfl) (.start rfl rfl) hprint).mpr ?_⟩
  intro b hb inst hinst
  simp only [callFunction, List.mem_cons, List.not_mem_nil, or_false] at hb
  rcases hb with rfl | rfl <;> simp at hinst
  · rcases hinst with rfl | rfl
    · exact ⟨by simp, by simp [FunctionRef.CallFits]⟩
    · simp [Operation.Fits, BranchInst.Fits, CopiesFit, callFunction, FunctionDef.branches,
        FunctionDef.block]
  · obtain rfl := hinst
    trivial

/-- The method of the function that calls `declare void @g(...)`. -/
def callVariadic : List Line :=
  lines [.label .beginMethod, .invokestatic .createStackFrame, .label (.block 0), .bipush 0,
    .invokestatic .allocateStack, .dup, .pop] ++
  [.call (.method none ⟨"g", [], .V⟩)] ++
  lines [.goto false (.block 1), .label (.block 1), .invokestatic .destroyStackFrame] ++
  [.simple "return"] ++ lines [.label .endMethod]

/-- For a function that is declared without a prototype, the address of the packed operands is
still on the stack at the next block. -/
theorem printFunction_not_emptyStack : ∃ m w',
    printFunction plainOpts false (callFunction ⟨"g", ⟨[], true, none⟩, true⟩) 0 2 .start =
      some (m, w') ∧ m.lines = callVariadic ∧
    (callFunction ⟨"g", ⟨[], true, none⟩, true⟩).WellFormed ∧
    (callFunction ⟨"g", ⟨[], true, none⟩, true⟩).Checked ∧ ¬ EmptyStack m := by
  refine ⟨_, _, rfl, rfl, callFunction_wellFormed _, callFunction_checked rfl rfl, fun h => ?_⟩
  have hfall : ∀ {l : Line} {rest : List Line} {s : List Category}, l.falls = true →
      Step lineEffects callVariadic (l :: rest, l.pops ++ s) (rest, l.pushes ++ s) :=
    fun hfalls => .fall rfl hfalls
  have hpath : Leads lineEffects callVariadic (callVariadic, []) (callVariadic.drop 9, [.one]) :=
    .head (hfall rfl) <| .head (hfall rfl) <| .head (hfall rfl) <| .head (hfall rfl) <|
    .head (hfall rfl) <| .head (hfall rfl) <| .head (hfall rfl) <| .head (hfall rfl) <|
    .single (.jump (t := .block 1) rfl (List.mem_singleton_self _) rfl
      (List.drop_suffix 9 callVariadic))
  cases h.blocks 1 _ _ hpath

end Llxvm.Backend
