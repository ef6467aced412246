import Llxvm.Backend.Emission

/-!
# The slots of a method

Values, the variadic arguments, the calls of `setjmp` and the caught `Jump` have slots of their own,
all of which are counted in `.limit locals`.
-/

namespace Llxvm.Backend

open Llxvm.Jvm

/-- The slots that a parameter of a method takes. -/
def descriptorSlots : TypeID → ℕ
  | .J => 2
  | .D => 2
  | _ => 1

theorem descriptorSlots_getTypeDescriptor (ty : Ty) :
    descriptorSlots (getTypeDescriptor ty false) = ty.registers := by
  cases ty with
  | int w =>
      have hcases : intBitWidth w.bits false = 1 ∨ intBitWidth w.bits false = 8 ∨
          intBitWidth w.bits false = 16 ∨ intBitWidth w.bits false = 32 ∨
          intBitWidth w.bits false = 64 := by
        unfold intBitWidth
        simp only [Bool.false_eq_true, if_false]
        split_ifs <;> omega
      rcases hcases with h | h | h | h | h <;>
        simp [getTypeDescriptor, getTypeID, Ty.registers, getBitWidth, h, descriptorSlots]
  | _ => rfl

/-- The slots that the first parameters of a method take. -/
def parameterSlots (params : List TypeID) (k : ℕ) : ℕ := ((params.take k).map descriptorSlots).sum

theorem parameterSlots_methodName (f : FunctionDef) {k : ℕ} (hk : k ≤ f.args.length) :
    parameterSlots f.methodName.params k = ((f.args.take k).map fun v => v.ty.registers).sum := by
  unfold parameterSlots FunctionDef.methodName declaredParams
  rw [List.take_append_of_le_length (by simpa using hk), List.map_map, ← List.map_take,
    List.map_map]
  congr 2
  exact funext fun v => descriptorSlots_getTypeDescriptor v.ty

/-- The slots that the handler compares with the number of a jump. -/
def comparedSlots (jumpVarNum numJumps : ℕ) : List ℕ :=
  List.range' (jumpVarNum - numJumps) numJumps

/-- The slots of the values of a function, of its variadic arguments and of its jumps. -/
structure AllocatesSlots (opts : GenerationOpts) (f : FunctionDef) (m : MethodText)
    (slot : Local → ℕ) : Prop where
  /-- Different values are apart. -/
  apart : ∀ u ∈ f.locals, ∀ v ∈ f.locals, u ≠ v →
    slot u + u.ty.registers ≤ slot v ∨ slot v + v.ty.registers ≤ slot u
  /-- The arguments are where the caller puts them. -/
  params : ∀ k v, f.args[k]? = some v → slot v = parameterSlots m.name.params k
  /-- All instructions are printed with these slots, and with that of the variadic arguments. -/
  used : ∀ p ∈ m.body.flatMap Segment.insts, ∃ w₁ w₂, (∀ v ∈ f.locals, w₁.Has v (slot v)) ∧
    printInst opts f (parameterSlots m.name.params f.args.length) p.1 w₁ = some (p.2, w₂)
  vaArg : f.ref.type.isVarArg = true → ∀ v ∈ f.locals,
    slot v + v.ty.registers ≤ parameterSlots m.name.params f.args.length ∨
      parameterSlots m.name.params f.args.length < slot v
  /-- Each call of `setjmp` stores into the slot that the handler compares, which is no slot of a
  value and is `0` when the body begins. -/
  jumps : f.numJumps ≠ 0 → ∃ jumpVarNum start init,
    m.handler = handlerLines jumpVarNum f.numJumps ∧
    List.Forall₂ StoresJump (setjmpCalls (m.body.flatMap Segment.insts))
      (comparedSlots jumpVarNum f.numJumps) ∧
    m.prologue = lines (start ++ init ++ [.label .beginMethod] ++
      [.invokestatic .createStackFrame]) ∧
    (∀ env c, ∃ locals, run env init none c = .fall { c with locals := locals } ∧
      ∀ k ∈ comparedSlots jumpVarNum f.numJumps, locals k = some (.int 0#32)) ∧
    ∀ v ∈ f.locals, ∀ k ∈ comparedSlots jumpVarNum f.numJumps, slot v + v.ty.registers ≤ k
  /-- All slots are counted. -/
  below : (∀ n ∈ slotEnds m.lines, n ≤ m.limitLocals) ∧
    (∀ v ∈ f.locals, slot v + v.ty.registers ≤ m.limitLocals) ∧
    parameterSlots m.name.params m.name.params.length ≤ m.limitLocals

/-- The code at the beginning of a method clears the slots of the jumps. -/
theorem run_initJumps (env : Env) (start n : ℕ) (c : Config) :
    ∃ locals, run env (initJumps start n) none c = .fall { c with locals := locals } ∧
      ∀ i < n, locals (start + i) = some (.int 0#32) := by
  induction n with
  | zero => exact ⟨c.locals, rfl, by simp⟩
  | succ n ih =>
      obtain ⟨locals, hrun, hzero⟩ := ih
      have hstep : run env [.const .i 0, .store .i .plain (start + n)] none
          { c with locals := locals } =
          .fall { c with locals := locals.set (start + n) (.int 0#32) } := rfl
      refine ⟨locals.set (start + n) (.int 0#32), ?_, fun i hi => ?_⟩
      · have happend : initJumps start (n + 1) =
            initJumps start n ++ [.const .i 0, .store .i .plain (start + n)] := by
          simp [initJumps, List.range_succ]
        rw [happend, run_append_of_fall hrun, hstep]
      · rcases Nat.lt_succ_iff_lt_or_eq.mp hi with hi | rfl
        · rw [Locals.set_of_ne]
          · exact hzero i hi
          · omega
          · simp [Val.isWide]
          · intro hwide
            rw [hzero i hi] at hwide
            cases hwide
        · exact Locals.set_self _ _ _

section method

variable {f : FunctionDef} {opts : GenerationOpts} {skip : Bool}
  {curBasicblockMapId maxOperands : ℕ} {w w' : Writer} {m : MethodText}

theorem slotEnds_initJumps (start n : ℕ) :
    ∀ k ∈ slotEnds (lines (initJumps start n)), k ≤ start + n := by
  intro k hk
  simp only [initJumps, slotEnds_flatMap, List.mem_flatMap, List.mem_range] at hk
  obtain ⟨i, hi, hk⟩ := hk
  simp only [lines_cons, lines_nil, slotEnds_cons, slotEnds_nil, Line.slotEnds, prefixRegisters,
    List.nil_append, List.append_nil, List.mem_singleton] at hk
  omega

theorem slotEnds_handlerLines (jumpVarNum numJumps : ℕ) (h : numJumps ≤ jumpVarNum) :
    ∀ k ∈ slotEnds (handlerLines jumpVarNum numJumps), k ≤ jumpVarNum + 1 := by
  have htests : ∀ k ∈ slotEnds (lines (catchTests jumpVarNum numJumps)), k ≤ jumpVarNum + 1 := by
    intro k hk
    simp only [catchTests, slotEnds_flatMap, List.mem_flatMap, List.mem_range'_1] at hk
    obtain ⟨i, hi, hk⟩ := hk
    simp only [lines_cons, lines_nil, slotEnds_cons, slotEnds_nil, Line.slotEnds, prefixRegisters,
      List.nil_append, List.append_nil, List.mem_append, List.mem_singleton] at hk
    omega
  intro k hk
  unfold handlerLines at hk
  split_ifs at hk
  · cases hk
  · simp only [slotEnds_cons, lines_append, slotEnds_append, lines_cons, lines_nil, slotEnds_nil,
      Line.slotEnds, prefixRegisters, List.nil_append, List.append_nil, List.mem_append,
      List.mem_singleton] at hk
    rcases hk with ((rfl | rfl) | hk) | rfl
    · rfl
    · rfl
    · exact htests k hk
    · rfl

variable (hf : f.WellFormed)

include hf

/-- The slots of the jumps follow those of the values, and each call of `setjmp` has one of them. -/
theorem MethodParts.jumpSlots {vaArgNum : ℕ} {w₁ w₂ : Writer}
    (h : MethodParts opts f vaArgNum w w₁ w₂ m)
    (hlocals : ∀ b ∈ f.blocks, ∀ inst ∈ b.insts, ∀ v, inst.op.register = some v → v ∈ f.locals) :
    w₂.usedRegisters = w₁.usedRegisters + f.numJumps ∧
    List.Forall₂ StoresJump (setjmpCalls (m.body.flatMap Segment.insts))
      (comparedSlots w₂.usedRegisters f.numJumps) := by
  have hsame : SameLocals { w₁ with lastLabel := some .beginMethod } w₁ := ⟨rfl, rfl⟩
  -- all values have their slots before the body
  have hextra : extra w₁ f.bodyOps = 0 := by
    refine (extra_eq_zero_iff w₁ f.bodyOps).mpr fun op hop v hv => ?_
    obtain ⟨id, hid, hop⟩ := List.mem_flatMap.mp hop
    obtain ⟨b, hb, rfl⟩ := List.mem_map.mp (hf.order_perm.mem_iff.mp hid)
    obtain ⟨inst, hinst, rfl⟩ := List.mem_map.mp hop
    rw [hf.insts_eq hb] at hinst
    exact (h.begun.lookup v.id).mpr ⟨v, hlocals b hb inst hinst v hv, rfl⟩
  have hused : w₂.usedRegisters = w₁.usedRegisters + f.numJumps := by
    rw [h.body.locals.2]
    change (f.bodyOps.foldl Writer.after _).usedRegisters = _
    rw [← (hsame.foldl_after f.bodyOps).2, usedRegisters_foldl, hextra, hf.numSetjmp_bodyOps,
      Nat.add_zero]
  have hcalls := h.body.calls
  change List.Forall₂ _ _ (jumps _ f.bodyOps) at hcalls
  rw [← hsame.jumps, jumps_eq_range hextra, hf.numSetjmp_bodyOps] at hcalls
  refine ⟨hused, ?_⟩
  rw [comparedSlots, hused, Nat.add_sub_cancel]
  exact hcalls

/-- Slots are given to values without collision, if all values that calls and jumps go through are
arguments and instructions. -/
theorem printFunction_slots
    (hlocals : ∀ b ∈ f.blocks, ∀ inst ∈ b.insts, ∀ v, inst.op.register = some v → v ∈ f.locals)
    (hw : w.Reachable opts)
    (hprint : printFunction opts skip f curBasicblockMapId maxOperands w = some (m, w')) :
    ∃ slot, AllocatesSlots opts f m slot := by
  obtain ⟨vaArgNum, w₁, w₂, hparts, -, -⟩ := printFunction_parts hf hw.ready.2 hprint
  obtain ⟨start, hinit, hprologue⟩ := hparts.prologue
  have hbegun := hparts.begun
  have hbody := hparts.body
  obtain ⟨hused, hcalls⟩ := hparts.jumpSlots hf hlocals
  have hhas : ∀ v ∈ f.locals, w₁.Has v (w₁.slot v) := by
    intro v hv
    obtain ⟨n, hn⟩ := Option.isSome_iff_exists.mp ((hbegun.lookup v.id).mpr ⟨v, hv, rfl⟩)
    have hn : w₁.Has v n := hn
    rwa [hn.slot_eq]
  have hroom : ∀ v ∈ f.locals, w₁.slot v + v.ty.registers ≤ w₁.usedRegisters := fun v hv =>
    hbegun.numbered.room v hv _ (hhas v hv)
  have hle : w₂.usedRegisters ≤ m.limitLocals := by
    rw [hparts.limitLocals]
    exact Nat.le_add_right _ _
  have hname : m.name = f.methodName := hparts.name
  have hva : parameterSlots m.name.params f.args.length = vaArgNum := by
    rw [hname, parameterSlots_methodName f le_rfl, List.take_length, hbegun.vaArgNum_eq]
  refine ⟨w₁.slot, ?_, ?_, ?_, ?_, ?_, ?_, ?_, ?_⟩
  · intro u hu v hv hne
    exact hbegun.numbered.apart u hu v hv (fun hid => hne (hf.locals u hu v hv hid)) _ _ (hhas u hu)
      (hhas v hv)
  · intro k v hv
    obtain ⟨hk, -⟩ := List.getElem?_eq_some_iff.mp hv
    rw [hname, parameterSlots_methodName f hk.le]
    exact (hbegun.params k v hv).slot_eq
  · intro p hp
    obtain ⟨w₃, w₄, -, hw₃, hmade⟩ := hbody.made p hp
    exact ⟨w₃, w₄, fun v hv => hw₃ v _ (hhas v hv), hva ▸ hmade⟩
  · intro hvararg v hv
    rw [hva]
    exact (hbegun.vaArg hvararg).2 v hv _ (hhas v hv)
  · intro hjumps
    refine ⟨w₂.usedRegisters, start, initJumps w₁.usedRegisters f.numJumps, hparts.handler, hcalls,
      hprologue, fun env c => ?_, fun v hv k hk => ?_⟩
    · obtain ⟨locals, hrun, hzero⟩ := run_initJumps env w₁.usedRegisters f.numJumps c
      refine ⟨locals, hrun, fun k hk => ?_⟩
      rw [comparedSlots, hused, Nat.add_sub_cancel, List.mem_range'_1] at hk
      rw [← Nat.add_sub_cancel' hk.1]
      exact hzero _ (by omega)
    · have hroom := hroom v hv
      rw [comparedSlots, hused, Nat.add_sub_cancel, List.mem_range'_1] at hk
      omega
  · intro n hn
    simp only [MethodText.lines, hprologue, hparts.handler, hparts.epilogue, lines_append,
      lines_cons, lines_nil, slotEnds_append, slotEnds_cons, slotEnds_nil, Line.slotEnds,
      List.append_nil, List.mem_append] at hn
    rcases hn with (hn | hn) | hn | hn
    · exact (hinit.below n hn).trans ((hused ▸ Nat.le_add_right _ _).trans hle)
    · exact (slotEnds_initJumps _ _ n hn).trans (hused ▸ hle)
    · exact (hbody.below n hn).trans hle
    · by_cases hzero : f.numJumps = 0
      · simp [handlerLines, hzero] at hn
      · rw [hparts.limitLocals, if_neg hzero]
        exact slotEnds_handlerLines _ _ (by omega) n hn
  · exact fun v hv => (hroom v hv).trans ((hused ▸ Nat.le_add_right _ _).trans hle)
  · have hparams : parameterSlots f.methodName.params f.methodName.params.length =
        vaArgNum + if f.ref.type.isVarArg then 1 else 0 := by
      have hsum : (((f.args.map Local.ty).map (getTypeDescriptor · false)).map
          descriptorSlots).sum = vaArgNum := by
        rw [List.map_map, List.map_map, hbegun.vaArgNum_eq]
        congr 2
        exact funext fun v => descriptorSlots_getTypeDescriptor v.ty
      rw [parameterSlots, List.take_length]
      unfold FunctionDef.methodName declaredParams
      rw [List.map_append, List.sum_append, hsum]
      cases f.ref.type.isVarArg <;> rfl
    rw [hname, hparams]
    refine le_trans ?_ ((hused ▸ Nat.le_add_right _ _ : w₁.usedRegisters ≤ _).trans hle)
    split_ifs with hvararg
    · exact (hbegun.vaArg hvararg).1
    · exact hbegun.vaArgNum_le

end method

theorem printFunction_slots_nested : ∃ m w',
    printFunction plainOpts false (nestedFunction []) 0 2 .start = some (m, w') ∧
    ∃ slot, AllocatesSlots plainOpts (nestedFunction []) m slot := by
  obtain ⟨w', hprint⟩ := exists_eq_some_get (isSome_nestedFunction (.inl rfl))
  refine ⟨_, w', hprint, printFunction_slots (nestedFunction_wellFormed (.inl rfl)) ?_
    (.start rfl rfl) hprint⟩
  simp [nestedFunction, setjmpInst, Operation.register]

end Llxvm.Backend
