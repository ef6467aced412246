import Llxvm.Backend.LabelNames
import Llxvm.Backend.Prologue

/-!
# Emitted methods

Every block of a function is printed once, and the labels of the method fit together unless a value
gets its local variable between the calls of `setjmp`.
-/

namespace Llxvm.Backend

open Llxvm.Jvm

namespace FunctionDef

variable (f : FunctionDef)

/-- The blocks in the order in which they are printed. -/
def order : List ℕ := f.loopInfo.bodyOrder (f.blocks.map BasicBlock.id)

/-- The operations in the order in which they are printed. -/
def bodyOps : List Operation := f.order.flatMap f.ops

variable {f}

theorem WellFormed.order_perm (hf : f.WellFormed) : f.order.Perm (f.blocks.map BasicBlock.id) :=
  hf.loops.bodyOrder_perm hf.ids

theorem WellFormed.insts_eq (hf : f.WellFormed) {b : BasicBlock} (hb : b ∈ f.blocks) :
    f.insts b.id = b.insts := by
  simp [FunctionDef.insts, hf.block_eq hb]

theorem WellFormed.numSetjmp_bodyOps (hf : f.WellFormed) : numSetjmp f.bodyOps = f.numJumps := by
  have hperm : f.bodyOps.Perm ((f.blocks.flatMap BasicBlock.insts).map Inst.op) := by
    refine (hf.order_perm.flatMap_right f.ops).trans (List.Perm.of_eq ?_)
    rw [List.flatMap_map, List.map_flatMap]
    exact List.flatMap_congr fun b hb => by rw [ops, hf.insts_eq hb]
  unfold numSetjmp numJumps
  rw [hperm.countP_eq, List.countP_map]
  rfl

end FunctionDef

section body

variable {opts : GenerationOpts} {f : FunctionDef} {vaArgNum : ℕ} {w w' : Writer}
  {segs : List Segment} (hf : f.WellFormed) (h : PrintsBody opts f vaArgNum f.order w w' segs)

include hf h

theorem PrintsBody.exists_block {id : ℕ} {label : Code} {insts : List (Inst × List Line)}
    (hseg : .block id label insts ∈ segs) :
    ∃ b ∈ f.blocks, insts.map Prod.fst = b.insts := by
  have hprinted : (id, insts.map Prod.fst) ∈ segs.filterMap Segment.printed :=
    List.mem_filterMap.mpr ⟨_, hseg, rfl⟩
  rw [h.printed] at hprinted
  obtain ⟨id', hid', heq⟩ := List.mem_map.mp hprinted
  obtain ⟨b, hb, rfl⟩ := List.mem_map.mp (hf.order_perm.mem_iff.mp hid')
  refine ⟨b, hb, ?_⟩
  rw [← hf.insts_eq hb]
  exact (congrArg Prod.snd heq).symm

theorem PrintsBody.inst_mem {p : Inst × List Line} (hp : p ∈ segs.flatMap Segment.insts) :
    ∃ b ∈ f.blocks, p.1 ∈ b.insts := by
  obtain ⟨seg, hseg, hp⟩ := List.mem_flatMap.mp hp
  cases seg with
  | header label => cases hp
  | back jump => cases hp
  | block id label insts =>
      obtain ⟨b, hb, heq⟩ := h.exists_block hf hseg
      exact ⟨b, hb, heq ▸ List.mem_map_of_mem hp⟩

theorem PrintsBody.exists_text {b : BasicBlock} (hb : b ∈ f.blocks) {inst : Inst}
    (hinst : inst ∈ b.insts) : ∃ ls, (inst, ls) ∈ segs.flatMap Segment.insts := by
  have hprinted : (b.id, b.insts) ∈ segs.filterMap Segment.printed := by
    rw [h.printed, ← hf.insts_eq hb]
    exact List.mem_map.mpr ⟨b.id, hf.order_perm.mem_iff.mpr (List.mem_map_of_mem hb), rfl⟩
  obtain ⟨seg, hseg, heq⟩ := List.mem_filterMap.mp hprinted
  cases seg with
  | header label => cases heq
  | back jump => cases heq
  | block id label insts =>
      obtain ⟨rfl, hinsts⟩ := Prod.ext_iff.mp (Option.some.inj heq)
      rw [← show insts.map Prod.fst = b.insts from hinsts] at hinst
      obtain ⟨p, hp, rfl⟩ := List.mem_map.mp hinst
      exact ⟨p.2, List.mem_flatMap.mpr ⟨_, hseg, hp⟩⟩

end body

/-! ## The parts of a method -/

/-- What `printCatchJump` prints. -/
def handlerLines (jumpVarNum numJumps : ℕ) : List Line :=
  if numJumps = 0 then []
  else .catching .beginMethod .catchJump .catchJump :: lines ([.label .catchJump] ++
    [.store .a .plain jumpVarNum, .load .a .plain jumpVarNum, .getfield .value] ++
    catchTests jumpVarNum numJumps ++ [.pop, .load .a .plain jumpVarNum, .athrow])

/-- The parts of a method, with the states of the writer before and after the body. -/
structure MethodParts (opts : GenerationOpts) (f : FunctionDef) (vaArgNum : ℕ) (w w₁ w₂ : Writer)
    (m : MethodText) : Prop where
  begun : Begun f vaArgNum w w₁
  body : PrintsBody opts f vaArgNum f.order { w₁ with lastLabel := some .beginMethod } w₂ m.body
  prologue : ∃ init, InitCode w₁ init ∧ m.prologue = lines (init ++
    initJumps w₁.usedRegisters f.numJumps ++ [.label .beginMethod] ++
      [.invokestatic .createStackFrame])
  handler : m.handler = handlerLines w₂.usedRegisters f.numJumps
  limitLocals : m.limitLocals = w₂.usedRegisters + if f.numJumps = 0 then 0 else 1
  epilogue : m.epilogue = lines [.label .endMethod]
  name : m.name = f.methodName

section method

variable {f : FunctionDef} {opts : GenerationOpts} {skip : Bool}
  {curBasicblockMapId maxOperands : ℕ} {w w' : Writer} {m : MethodText}

theorem Begun.ready {vaArgNum : ℕ} {w₁ : Writer} (h : Begun f vaArgNum w w₁) :
    f.Ready vaArgNum { w₁ with lastLabel := some .beginMethod } where
  last := by
    intro l hl
    cases hl
    trivial
  has := fun v hv => (h.lookup v.id).mpr ⟨v, hv, rfl⟩
  given := h.numbered.given
  room := h.numbered.room
  vaArg := fun hva => (h.vaArg hva).1

variable (hf : f.WellFormed)

include hf

/-- A method has its parts, and leaves the writer behind the label at its end. -/
theorem printFunction_parts (hlast : w.lastLabel ≠ some .beginMethod)
    (hprint : printFunction opts skip f curBasicblockMapId maxOperands w = some (m, w')) :
    ∃ vaArgNum w₁ w₂, MethodParts opts f vaArgNum w w₁ w₂ m ∧
      w'.lastLabel = some .endMethod ∧ Ready [] w' := by
  obtain ⟨_, w₁, h₁, hprint⟩ := emit_bind_eq_some hprint
  obtain ⟨_, w₂, h₂, hprint⟩ := emit_bind_eq_some hprint
  obtain ⟨vaArgNum, w₃, h₃, hprint⟩ := emit_bind_eq_some hprint
  obtain ⟨init, w₄, h₄, hprint⟩ := emit_bind_eq_some hprint
  obtain ⟨hbegun, hinit⟩ := begun hf h₁ h₂ h₃ h₄
  clear h₁ h₂ h₃ h₄
  obtain ⟨_, _, hget, hprint⟩ := emit_bind_eq_some hprint
  cases hget
  obtain ⟨label, w₅, hlabel, hprint⟩ := emit_bind_eq_some hprint
  rw [printLabel_of_ne (by rwa [hbegun.lastLabel])] at hlabel
  cases hlabel
  obtain ⟨body, w₆, hbody, hprint⟩ := emit_bind_eq_some hprint
  have hready := hbegun.ready
  have hprints := printFunctionBody_prints hf hready (by simp) hbody
  have hnew : ∀ l : Label, l ≠ .beginMethod → OldLabel w₄ l → (∀ b, l ≠ .block b) →
      w₆.lastLabel ≠ some l := by
    intro l hne hold hblock
    refine hprints.toPrints.last_ne (by simpa using hne.symm) hold fun hmem => ?_
    obtain ⟨b, -, rfl⟩ := List.mem_map.mp hmem
    exact hblock b rfl
  have hready₆ := (hready.afterOps hprints.toPrintsOps).toReady
  obtain ⟨handler, w₇, hhandler, hprint⟩ := emit_bind_eq_some hprint
  obtain ⟨_, _, hget, hprint⟩ := emit_bind_eq_some hprint
  cases hget
  obtain ⟨end_method, w₈, hend, hprint⟩ := emit_bind_eq_some hprint
  cases hprint
  have hcatch : handler = handlerLines w₆.usedRegisters f.numJumps ∧
      w₇.usedRegisters = w₆.usedRegisters + (if f.numJumps = 0 then 0 else 1) ∧
      w₇.localVars = w₆.localVars ∧ w₇.lastLabel ≠ some .endMethod := by
    unfold printCatchJump at hhandler
    unfold handlerLines
    split_ifs at hhandler ⊢ with hzero
    · cases hhandler
      exact ⟨rfl, rfl, rfl, hnew .endMethod (by simp) trivial (by simp)⟩
    · obtain ⟨_, _, hget, hhandler⟩ := emit_bind_eq_some hhandler
      cases hget
      obtain ⟨_, w₉, hset, hhandler⟩ := emit_bind_eq_some hhandler
      cases hset
      obtain ⟨label, w₁₀, hlabel, hhandler⟩ := emit_bind_eq_some hhandler
      have hne : ({ w₆ with usedRegisters := w₆.usedRegisters + 1 } : Writer).lastLabel ≠
          some .catchJump := hnew .catchJump (by simp) trivial (by simp)
      rw [printLabel_of_ne hne] at hlabel
      cases hlabel
      cases hhandler
      exact ⟨rfl, rfl, rfl, by simp⟩
  obtain ⟨rfl, hused, hvars, hne⟩ := hcatch
  rw [printLabel_of_ne hne] at hend
  cases hend
  have hle : w₆.usedRegisters ≤ w₇.usedRegisters := by
    rw [hused]
    exact Nat.le_add_right _ _
  refine ⟨vaArgNum, w₄, w₆, ⟨hbegun, hprints, ⟨init, hinit, rfl⟩, rfl, hused, rfl, rfl⟩, rfl, ?_,
    by simp,
    fun id n hn => (hready₆.given id n (hvars ▸ hn)).trans_le hle, by simp⟩
  intro l hl
  cases hl
  trivial

end method

/-! ## Labels -/

section labels

variable {opts : GenerationOpts} {f : FunctionDef} {vaArgNum : ℕ} {w w₁ w₂ : Writer}
  {m : MethodText} (hf : f.WellFormed) (h : MethodParts opts f vaArgNum w w₁ w₂ m)

include h

theorem MethodParts.labels_eq :
    labels m.lines = .beginMethod :: labels (m.body.flatMap Segment.lines)
    ++ (if f.numJumps = 0 then [] else [.catchJump]) ++ [.endMethod] := by
  obtain ⟨init, hinit, hprologue⟩ := h.prologue
  have hids : labels (lines (initJumps w₁.usedRegisters f.numJumps)) = [] := by
    simp [initJumps, labels_flatMap, Line.labels]
  have htests : labels (lines (catchTests w₂.usedRegisters f.numJumps)) = [] := by
    simp [catchTests, labels_flatMap, Line.labels]
  have hhandler : labels m.handler = if f.numJumps = 0 then [] else [.catchJump] := by
    rw [h.handler, handlerLines]
    split_ifs
    · rfl
    · simp [htests, Line.labels]
  simp [MethodText.lines, hprologue, hhandler, h.epilogue, hinit.labels, hids, Line.labels]

theorem MethodParts.mem_targets {l : Label} : l ∈ targets m.lines ↔
    l ∈ targets (m.body.flatMap Segment.lines) ∨ f.numJumps ≠ 0 ∧ (l = .beginMethod ∨
      l = .catchJump ∨ ∃ n ∈ List.range' (w₂.usedRegisters - f.numJumps) f.numJumps,
        l = .setjmp n) := by
  obtain ⟨init, hinit, hprologue⟩ := h.prologue
  have hids : targets (lines (initJumps w₁.usedRegisters f.numJumps)) = [] := by
    simp [initJumps, targets_flatMap, Line.targets]
  have htests : ∀ l, l ∈ targets (lines (catchTests w₂.usedRegisters f.numJumps)) ↔
      ∃ n ∈ List.range' (w₂.usedRegisters - f.numJumps) f.numJumps, l = .setjmp n := by
    simp [catchTests, targets_flatMap, Line.targets]
  have hhandler : ∀ l, l ∈ targets m.handler ↔ f.numJumps ≠ 0 ∧ (l = .beginMethod ∨
      l = .catchJump ∨ ∃ n ∈ List.range' (w₂.usedRegisters - f.numJumps) f.numJumps,
        l = .setjmp n) := by
    intro l
    rw [h.handler, handlerLines]
    split_ifs with hzero
    · simp [hzero]
    · simp only [targets_cons, lines_append, targets_append, lines_cons, lines_nil, targets_nil,
        Line.targets, List.mem_append, htests, List.mem_cons, List.not_mem_nil, or_false,
        false_or, hzero, ne_eq, not_false_eq_true, true_and, or_assoc]
      tauto
  rw [← hhandler]
  simp [MethodText.lines, hprologue, h.epilogue, hinit.targets, hids, Line.targets]

theorem MethodParts.nodup : (labels m.lines).Nodup := by
  have hbody : ∀ l ∈ labels (m.body.flatMap Segment.lines),
      l ≠ .beginMethod ∧ l ≠ .catchJump ∧ l ≠ .endMethod := by
    intro l hl
    rcases h.body.new l hl with hnew | hkept
    · refine ⟨?_, ?_, ?_⟩ <;> rintro rfl <;> exact hnew
    · obtain ⟨b, -, rfl⟩ := List.mem_map.mp hkept
      simp
  rw [h.labels_eq]
  have hnodup := h.body.nodup
  split_ifs
  · simp only [List.append_nil, List.cons_append, List.nodup_cons, List.mem_append,
      List.mem_singleton, reduceCtorEq, or_false]
    refine ⟨fun hl => (hbody _ hl).1 rfl, List.Nodup.append hnodup (List.nodup_singleton _) ?_⟩
    intro l hl hl'
    exact (hbody l hl).2.2 (List.mem_singleton.mp hl')
  · simp only [List.append_assoc, List.cons_append, List.nil_append, List.nodup_cons,
      List.mem_append, List.mem_cons, List.not_mem_nil, reduceCtorEq, or_false]
    refine ⟨fun hl => (hbody _ hl).1 rfl, List.Nodup.append hnodup (by simp) ?_⟩
    intro l hl hl'
    rcases List.mem_cons.mp hl' with rfl | hl'
    · exact (hbody _ hl).2.1 rfl
    · exact (hbody l hl).2.2 (List.mem_singleton.mp hl')

include hf

/-- The labels of the tests behind `catch_jump` are all that may be missing. -/
theorem MethodParts.defined_iff : (∀ l ∈ targets m.lines, l ∈ labels m.lines) ↔
    AllocatesFirst w₁ f.bodyOps := by
  have hsame : SameLocals { w₁ with lastLabel := some .beginMethod } w₁ := ⟨rfl, rfl⟩
  have hused : w₂.usedRegisters = (f.bodyOps.foldl Writer.after w₁).usedRegisters := by
    rw [h.body.locals.2]
    exact (hsame.foldl_after f.bodyOps).2.symm
  have hbody : ∀ l ∈ targets (m.body.flatMap Segment.lines), l ∈ labels m.lines := by
    intro l hl
    rw [h.labels_eq]
    suffices l ∈ labels (m.body.flatMap Segment.lines) by simp [this]
    rcases h.body.defined l hl with hl | ⟨b, hb, rfl⟩
    · exact hl
    · exact h.body.hasLabel b.id (hf.order_perm.mem_iff.mpr (List.mem_map_of_mem hb))
  have hsetjmp : ∀ n, .setjmp n ∈ labels m.lines ↔ n ∈ jumps w₁ f.bodyOps := by
    intro n
    rw [h.labels_eq, hsame.jumps]
    change _ ↔ n ∈ jumps _ (f.order.flatMap f.ops)
    rw [← h.body.setjmp n]
    split_ifs <;> simp
  rw [← range_subset_jumps_iff, ← hused, hf.numSetjmp_bodyOps]
  constructor
  · intro hall n hn
    have hpos : f.numJumps ≠ 0 := by
      intro hzero
      rw [hzero] at hn
      cases hn
    exact (hsetjmp n).mp (hall _ (h.mem_targets.mpr (.inr ⟨hpos, .inr (.inr ⟨n, hn, rfl⟩)⟩)))
  · intro hsub l hl
    rcases h.mem_targets.mp hl with hl | ⟨hpos, rfl | rfl | ⟨n, hn, rfl⟩⟩
    · exact hbody l hl
    · simp [h.labels_eq]
    · simp [h.labels_eq, hpos]
    · exact (hsetjmp n).mpr (hsub hn)

end labels

/-! ## The whole method -/

/-- The states of the writer behind static constants and methods. -/
inductive Writer.Reachable (opts : GenerationOpts) : Writer → Prop
  | start {w : Writer} (hvars : w.localVars = []) (hlast : w.lastLabel = none) : Reachable opts w
  | constant {c : Constant} {code : Code} {w w' : Writer} (h : Reachable opts w)
      (hprint : printConstantLoad opts c w = some (code, w')) : Reachable opts w'
  | function {f : FunctionDef} {skip : Bool} {curBasicblockMapId maxOperands : ℕ} {m : MethodText}
      {w w' : Writer} (h : Reachable opts w) (hf : f.WellFormed)
      (hprint : printFunction opts skip f curBasicblockMapId maxOperands w = some (m, w')) :
      Reachable opts w'

theorem Writer.Reachable.ready {opts : GenerationOpts} {w : Writer} (h : w.Reachable opts) :
    Ready [] w ∧ w.lastLabel ≠ some .beginMethod := by
  induction h with
  | start hvars hlast =>
      exact ⟨⟨by simp [hlast], by simp, by simp [hvars], by simp⟩, by simp [hlast]⟩
  | constant h hprint ih =>
      have hprints := safe_printConstantLoad (T := fun _ => False) _ ih.1 hprint
      exact ⟨ih.1.after hprints, hprints.last_ne ih.2 trivial (by simp)⟩
  | function h hf hprint ih =>
      obtain ⟨-, -, -, -, hlast, hready⟩ := printFunction_parts hf ih.2 hprint
      exact ⟨hready, by simp [hlast]⟩

/-- A method has each block once, with its instructions, the first block first, and its labels fit
together. -/
structure WellEmitted (f : FunctionDef) (name : Label → String) (m : MethodText) : Prop where
  once : (m.body.filterMap Segment.printed).Perm (f.blocks.map fun b => (b.id, b.insts))
  entry : (m.body.filterMap Segment.printed).head? = f.blocks.head?.map fun b => (b.id, b.insts)
  unique : ((labels m.lines).map name).Nodup
  defined : ∀ l ∈ targets m.lines, name l ∈ (labels m.lines).map name

/-- What gets a local variable in the body, because it is no argument and no instruction, is used
before all calls of `setjmp`. -/
def FunctionDef.AllocatesFirst (f : FunctionDef) : Prop :=
  ∀ op ∈ f.bodyOps.dropWhile fun op => !op.isSetjmp, ∀ v, op.register = some v →
    (∃ u ∈ f.locals, u.id = v.id) ∨ ∃ op' ∈ f.bodyOps.takeWhile fun op => !op.isSetjmp,
      ∃ u, op'.register = some u ∧ u.id = v.id

/-- The number of a block in the text of its label. -/
def blockNumber (requests : List ℕ) (b : ℕ) : ℕ := ((blockIDs requests).lookup b).getD 0

theorem blockNumber_inj {requests : List ℕ} {b b' : ℕ} (hb : b ∈ requests) (hb' : b' ∈ requests)
    (h : blockNumber requests b = blockNumber requests b') : b = b' := by
  obtain ⟨n, hn⟩ := Option.isSome_iff_exists.mp (isSome_lookup_blockIDs hb)
  obtain ⟨n', hn'⟩ := Option.isSome_iff_exists.mp (isSome_lookup_blockIDs hb')
  simp only [blockNumber, hn, hn', Option.getD_some] at h
  exact (blockIDs_injective requests).inj b b' n hn (h ▸ hn')

section method

variable {f : FunctionDef} {opts : GenerationOpts} {skip : Bool}
  {curBasicblockMapId maxOperands : ℕ} {w w' : Writer} {m : MethodText} (hf : f.WellFormed)

include hf

theorem MethodParts.once {vaArgNum : ℕ} {w₁ w₂ : Writer}
    (h : MethodParts opts f vaArgNum w w₁ w₂ m) :
    (m.body.filterMap Segment.printed).Perm (f.blocks.map fun b => (b.id, b.insts)) ∧
    (m.body.filterMap Segment.printed).head? = f.blocks.head?.map fun b => (b.id, b.insts) := by
  have hblocks : (f.blocks.map BasicBlock.id).map (fun id => (id, f.insts id)) =
      f.blocks.map fun b => (b.id, b.insts) := by
    rw [List.map_map]
    exact List.map_congr_left fun b hb => by simp [hf.insts_eq hb]
  rw [h.body.printed, ← hblocks]
  refine ⟨hf.order_perm.map _, ?_⟩
  rw [List.head?_map, FunctionDef.order, hf.loops.head_bodyOrder, ← List.head?_map, hblocks,
    List.head?_map]

/-- In every state of the writer, a method is emitted as it should be exactly if what gets a local
variable in the body is used before all calls of `setjmp`. -/
theorem printFunction_emitted_iff (hw : w.Reachable opts)
    (hprint : printFunction opts skip f curBasicblockMapId maxOperands w = some (m, w'))
    {requests : List ℕ}
    (hrequests : ∀ l ∈ labels m.lines ++ targets m.lines, labelBlocks l ⊆ requests) :
    WellEmitted f (labelText (blockNumber requests)) m ↔ f.AllocatesFirst := by
  obtain ⟨vaArgNum, w₁, w₂, hparts, -, -⟩ := printFunction_parts hf hw.ready.2 hprint
  have hinj : ∀ l ∈ labels m.lines ++ targets m.lines, ∀ l' ∈ labels m.lines ++ targets m.lines,
      labelText (blockNumber requests) l = labelText (blockNumber requests) l' → l = l' :=
    fun l hl l' hl' => labelText_inj fun b hb b' hb' =>
      blockNumber_inj (hrequests l hl hb) (hrequests l' hl' hb')
  have hcondition : AllocatesFirst w₁ f.bodyOps ↔ f.AllocatesFirst := by
    simp only [allocatesFirst_iff, hparts.begun.lookup, FunctionDef.AllocatesFirst]
  rw [← hcondition, ← hparts.defined_iff hf]
  constructor
  · intro h l hl
    obtain ⟨l', hl', heq⟩ := List.mem_map.mp (h.defined l hl)
    rwa [← hinj l' (List.mem_append_left _ hl') l (List.mem_append_right _ hl) heq]
  · intro h
    obtain ⟨honce, hentry⟩ := hparts.once hf
    refine ⟨honce, hentry, hparts.nodup.map_on fun l hl l' hl' =>
      hinj l (List.mem_append_left _ hl) l' (List.mem_append_left _ hl'),
      fun l hl => List.mem_map_of_mem (h l hl)⟩

end method

/-! ## Some functions -/

/-- The call of `setjmp(buffer)`. -/
def setjmpInst : Inst where
  result := some ⟨1, .int .w32⟩
  op := .call (.const (.function ⟨"setjmp", ⟨[.pointer], false, some (.int .w32)⟩, true⟩))
    ⟨[.pointer], false, some (.int .w32)⟩ [.var ⟨0, .pointer⟩]

/-- An inline assembly without operands. -/
def asmInst : Inst := ⟨none, .call (.var ⟨2, .pointer⟩) ⟨[], false, none⟩ []⟩

/-- A function of one block, which calls `setjmp` and has an inline assembly. -/
def setjmpFunction (insts : List Inst) : FunctionDef where
  ref := ⟨"f", ⟨[.pointer], false, none⟩, false⟩
  hasLocalLinkage := false
  args := [⟨0, .pointer⟩]
  blocks := [⟨0, "", [], insts ++ [⟨none, .ret none⟩]⟩]
  loopInfo := .empty

theorem setjmpFunction_wellFormed {insts : List Inst}
    (h : insts = [setjmpInst, asmInst] ∨ insts = [asmInst, setjmpInst] ∨ insts = [setjmpInst]) :
    (setjmpFunction insts).WellFormed := by
  have hlocals : (setjmpFunction insts).locals = [⟨0, .pointer⟩, ⟨1, .int .w32⟩] := by
    rcases h with rfl | rfl | rfl <;> rfl
  refine .of_blocks (LoopInfo.wellFormed_empty _) (by simp [setjmpFunction])
    (by simp [setjmpFunction]) (by simp [hlocals]) (by simp [setjmpFunction]) ?_
  have haccepts : ∀ inst ∈ [setjmpInst, asmInst, ⟨none, .ret none⟩],
      (setjmpFunction insts).Accepts inst := by
    simp [FunctionDef.accepts_iff, hlocals, setjmpInst, asmInst, Operation.operands, Value.In,
      Operation.successors, Operation.register, Operation.swapParameter]
  intro b hb inst hinst
  obtain rfl := List.mem_singleton.mp hb
  refine haccepts inst ?_
  rcases h with rfl | rfl | rfl <;> simp at hinst ⊢ <;> tauto

/-- A variadic function with a loop in a loop, which calls `setjmp` in the inner one; `insts` are in
the first block and behind the inner loop. -/
def nestedFunction (insts : List Inst) : FunctionDef where
  ref := ⟨"f", ⟨[.pointer, .int .w64, .int .w1], true, none⟩, false⟩
  hasLocalLinkage := false
  args := [⟨0, .pointer⟩, ⟨3, .int .w64⟩, ⟨4, .int .w1⟩]
  blocks := [⟨0, "entry", [], insts ++ [⟨none, .br (.unconditional 0 1)⟩]⟩,
    ⟨1, "outer", [⟨⟨5, .int .w64⟩, [(0, .var ⟨3, .int .w64⟩), (4, .var ⟨6, .int .w64⟩)]⟩],
      [⟨none, .br (.unconditional 1 2)⟩]⟩,
    ⟨2, "inner", [⟨⟨6, .int .w64⟩, [(1, .var ⟨5, .int .w64⟩), (3, .var ⟨6, .int .w64⟩)]⟩],
      [⟨none, .br (.conditional 2 (.var ⟨4, .int .w1⟩) 3 4)⟩]⟩,
    ⟨3, "body", [], [setjmpInst, ⟨none, .br (.unconditional 3 2)⟩]⟩,
    ⟨4, "latch", [], insts ++ [⟨none, .br (.conditional 4 (.var ⟨4, .int .w1⟩) 1 5)⟩]⟩,
    ⟨5, "exit", [], [⟨none, .ret none⟩]⟩]
  loopInfo := .nest [[1, 2, 3, 4], [2, 3]]

theorem nestedFunction_wellFormed {insts : List Inst} (h : insts = [] ∨ insts = [asmInst]) :
    (nestedFunction insts).WellFormed := by
  have hlocals : (nestedFunction insts).locals = [⟨0, .pointer⟩, ⟨3, .int .w64⟩, ⟨4, .int .w1⟩,
      ⟨5, .int .w64⟩, ⟨6, .int .w64⟩, ⟨1, .int .w32⟩] := by
    rcases h with rfl | rfl <;> rfl
  refine .of_blocks (LoopInfo.wellFormed_nest (by simp) (by simp [nestedFunction]))
    (by simp [nestedFunction]) (by simp [nestedFunction]) (by simp [hlocals]) ?_ ?_
  · rw [hlocals]
    simp [nestedFunction, or_imp, forall_and, Value.In]
  · rcases h with rfl | rfl <;>
    · simp only [FunctionDef.accepts_iff, hlocals]
      simp [nestedFunction, asmInst, setjmpInst, Operation.operands, BranchInst.condition,
        Operation.successors, BranchInst.successors, Operation.register, Operation.swapParameter,
        Value.In]

/-- A function that calls `g` in its first block and returns in its second one. -/
def callFunction (g : FunctionRef) : FunctionDef where
  ref := ⟨"f", ⟨[], false, none⟩, false⟩
  hasLocalLinkage := false
  args := []
  blocks := [⟨0, "", [], [⟨none, .call (.const (.function g)) g.type []⟩,
    ⟨none, .br (.unconditional 0 1)⟩]⟩, ⟨1, "", [], [⟨none, .ret none⟩]⟩]
  loopInfo := .empty

theorem callFunction_wellFormed (g : FunctionRef) : (callFunction g).WellFormed :=
  .of_blocks (LoopInfo.wellFormed_empty _) (by simp [callFunction]) (by simp [callFunction])
    (by simp [callFunction, FunctionDef.locals, BasicBlock.results, Operation.swapParameter])
    (by simp [callFunction])
    (by simp [callFunction, FunctionDef.accepts_iff, Operation.operands, BranchInst.condition,
      Operation.successors, BranchInst.successors, Operation.register, Operation.swapParameter])

/-- The writer at its start. -/
def Writer.start : Writer := ⟨[], 0, [], 0, 0, none⟩

def plainOpts : GenerationOpts := ⟨false, false, false, false⟩

theorem exists_eq_some_get {α β : Type} {x : Option (α × β)} (h : x.isSome = true) :
    ∃ b, x = some ((x.get h).1, b) :=
  ⟨(x.get h).2, (Option.some_get h).symm⟩

theorem isSome_nestedFunction {insts : List Inst} (h : insts = [] ∨ insts = [asmInst]) :
    (printFunction plainOpts false (nestedFunction insts) 0 2 .start).isSome = true := by
  rcases h with rfl | rfl <;> decide +kernel

theorem printFunction_emitted_nested : ∃ m w',
    printFunction plainOpts false (nestedFunction [asmInst]) 0 2 .start = some (m, w') ∧
    WellEmitted (nestedFunction [asmInst]) (labelText (blockNumber [0, 1, 2, 3, 4, 5])) m := by
  obtain ⟨w', hprint⟩ := exists_eq_some_get (isSome_nestedFunction (.inr rfl))
  refine ⟨_, w', hprint, (printFunction_emitted_iff (nestedFunction_wellFormed (.inr rfl))
    (.start rfl rfl) hprint (by decide +kernel)).mpr ?_⟩
  -- the assembly has its local variable before the call of `setjmp`
  have hops : (nestedFunction [asmInst]).bodyOps = [asmInst.op, .br (.unconditional 0 1),
      .br (.unconditional 1 2), .br (.conditional 2 (.var ⟨4, .int .w1⟩) 3 4), setjmpInst.op,
      .br (.unconditional 3 2), asmInst.op, .br (.conditional 4 (.var ⟨4, .int .w1⟩) 1 5),
      .ret none] := rfl
  rw [FunctionDef.AllocatesFirst, hops]
  simp [asmInst, setjmpInst, Operation.isSetjmp, Operation.register]

/-- Behind a call of `setjmp`, an inline assembly takes the last local variable, for which there is
no label. -/
theorem printFunction_not_emitted : ∃ m w',
    printFunction plainOpts false (setjmpFunction [setjmpInst, asmInst]) 0 2 .start = some (m, w') ∧
    (setjmpFunction [setjmpInst, asmInst]).WellFormed ∧
    ¬ WellEmitted (setjmpFunction [setjmpInst, asmInst]) (labelText (blockNumber [0])) m := by
  refine ⟨_, _, rfl, setjmpFunction_wellFormed (.inl rfl), fun h => ?_⟩
  have hdefined := h.defined (.setjmp 3) (by decide)
  revert hdefined
  decide

end Llxvm.Backend
