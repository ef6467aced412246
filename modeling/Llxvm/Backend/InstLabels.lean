import Llxvm.Backend.Labels

/-!
# Labels of instructions

The labels in the code of every instruction: those of branches and of `select`, and those behind
calls of `setjmp`.
-/

namespace Llxvm.Backend

open Llxvm.Jvm

section branches

variable {T : Label → Prop} {vars : List Local} {opts : GenerationOpts} {f : Function}

/-- The values that are copied to PHI nodes belong to the function. -/
def PhisIn (vars : List Local) (phis : List Phi) : Prop :=
  ∀ p ∈ phis, p.result ∈ vars ∧ ∀ src v, p.getIncomingValueForBlock src = some v → v.In vars

theorem safe_printPHICopies {phis : List Phi} (h : PhisIn vars phis) (src : ℕ) :
    Safe T vars lines (printPHICopies opts src phis) := by
  induction phis with
  | nil => exact safe_pure (by simp [Plain])
  | cons p phis ih =>
      have htail := ih fun q hq => h q (List.mem_cons_of_mem p hq)
      obtain ⟨hresult, hincoming⟩ := h p List.mem_cons_self
      unfold printPHICopies
      cases hv : p.getIncomingValueForBlock src with
      | none => exact safe_unreachable
      | some v =>
          simp only
          split_ifs
          · exact htail
          · exact (safe_printValueLoad (hincoming src v hv)).bind fun load =>
              SafeAfter.bind (safe_printValueStore hresult) fun store =>
                SafeAfter.bind htail fun rest => .ret_of_eq (by simp) (by simp) (by simp)

variable (hphis : ∀ b, PhisIn vars (f.phis b))

include hphis

theorem safe_printPHICopy (src dest : ℕ) :
    Safe T vars lines (printPHICopy opts f src dest) := safe_printPHICopies (hphis dest) src

theorem safe_printFalseCopies (src dest : ℕ) :
    Safe T vars lines (printFalseCopies opts f src dest) := by
  rw [printFalseCopies_eq]
  exact safe_printPHICopy hphis src dest

theorem safe_printBranch {src dest : ℕ} (hdest : T (.block dest)) :
    Safe T vars lines (printBranch opts f src dest) := by
  refine (safe_printPHICopy hphis src dest).bind fun copies => .ret ?_ ?_ ?_
  · simp [Line.labels, gotoToken]
  · intro l hl
    simp only [lines_append, lines_cons, lines_nil, targets_append, targets_cons, targets_nil,
      Line.targets, gotoToken, List.mem_append, List.mem_singleton, List.not_mem_nil,
      or_false] at hl
    exact hl.imp_right fun heq => .inr (by rwa [heq])
  · simp [Line.slotEnds, gotoToken]

omit hphis

/-- The label of a rewritten test is its own. -/
theorem safe_printIfne {target : Label} (htarget : T target) :
    Safe T vars lines (printIfne opts target) := by
  unfold printIfne
  split_ifs
  · intro w w' is hw hprint
    simp only [rewriteBranch, emit_bind, emit_get, Option.bind_some] at hprint
    cases hprint
    have hlater : Later w { w with curRewriteBrLblId := w.curRewriteBrLblId + 1 } :=
      ⟨le_rfl, Nat.le_succ _, le_rfl⟩
    refine ⟨⟨hlater, .inl rfl, ?_, by simp, ?_, ?_, ?_⟩, rfl, rfl⟩
    · simp [Line.labels, NewLabel]
    · simp [Line.labels]
    · simp [Line.labels, Line.targets, htarget]
    · simp [Line.slotEnds]
  · intro w w' is hw hprint
    cases hprint
    refine ⟨⟨.refl w, .inl rfl, ?_, by simp, ?_, ?_, ?_⟩, rfl, rfl⟩
    · simp [Line.labels]
    · simp [Line.labels]
    · simp [Line.labels, Line.targets, htarget]
    · simp [Line.slotEnds]

include hphis

/-- The copies for the true block stand behind a label of their own. -/
theorem safe_printBranchIf {src t e : ℕ} (ht : T (.block t)) (he : T (.block e)) :
    Safe T vars lines (printBranchIf opts f src t (some e)) := by
  unfold printBranchIf
  simp only
  split_ifs with hte hnil
  · exact (safe_printBranch hphis ht).bind fun br => .ret_of_eq (by simp [Line.labels])
        (by simp [Line.targets]) (by simp [Line.slotEnds])
  · intro w w' is hw hprint
    obtain ⟨l, w₁, hl, h₁⟩ := emit_bind_eq_some hprint
    obtain ⟨br, w₂, hbr, h₂⟩ := emit_bind_eq_some h₁
    obtain ⟨copies, w₃, hcopies, h₃⟩ := emit_bind_eq_some h₂
    clear hprint h₁ h₂
    rw [trueLabel, if_pos hnil] at hl
    cases hl
    cases h₃
    have hbr' := safe_printIfne ht hw hbr
    have hall := hbr'.trans (safe_printFalseCopies hphis src e (hw.after hbr') hcopies)
    refine hall.congr (by simp [Line.labels, gotoToken]) (fun l hl => ?_)
      fun n hn => .inl (by simpa [Line.slotEnds, gotoToken] using hn)
    simp only [lines_append, lines_cons, lines_nil, targets_append, targets_cons, targets_nil,
      Line.targets, gotoToken, List.mem_append, List.mem_singleton, List.not_mem_nil,
      or_false] at hl ⊢
    exact hl.imp_right fun heq => .inr (by rwa [heq])
  · intro w w' is hw hprint
    obtain ⟨l, w₁, hl, h₁⟩ := emit_bind_eq_some hprint
    obtain ⟨br, w₂, hbr, h₂⟩ := emit_bind_eq_some h₁
    obtain ⟨copies, w₃, hcopies, h₃⟩ := emit_bind_eq_some h₂
    obtain ⟨label, w₄, hlab, h₄⟩ := emit_bind_eq_some h₃
    obtain ⟨trueCopies, w₅, htrue, h₅⟩ := emit_bind_eq_some h₄
    clear hprint h₁ h₂ h₃ h₄
    rw [trueLabel, if_neg hnil] at hl
    cases hl
    cases h₅
    have hlater : Later w { w with uid := w.uid + 1 } := ⟨Nat.le_succ _, le_rfl, le_rfl⟩
    have hnew : NewLabel w { w with uid := w.uid + 1 } (.phi t (w.uid + 1)) := by
      simp [NewLabel]
    have hw₁ : Ready vars { w with uid := w.uid + 1 } := hw.later hlater rfl rfl
    -- the label of the copies is named before it is defined
    have hbr' : PrintsOnly (fun l => T l ∨ l = .phi t (w.uid + 1)) _ w₂ (lines br) :=
      safe_printIfne (.inr rfl) hw₁ hbr
    have hcopies' := hbr'.trans (safe_printFalseCopies hphis src e (hw₁.after hbr') hcopies)
    obtain ⟨rfl, hw₄, hlab⟩ := Prints.label (T := fun l => T l ∨ l = .phi t (w.uid + 1))
      (hnew.old.mono hcopies'.toLater)
      (hcopies'.last_ne (hw.last_ne hnew) hnew.old (by simp)) hlab
    have hboth := hcopies'.toPrints.trans hlab (by simpa using hnew.old) (by simp)
    have hready := hw₁.after_of_eq hboth (by rw [hw₄]; exact hcopies'.localVars)
    have htrue' := safe_printPHICopy (T := fun l => T l ∨ l = .phi t (w.uid + 1)) hphis src t
      hready htrue
    have hkept := (hboth.append htrue'.toPrints).keep hlater rfl (by simpa using hnew)
    have hcode : Prints (fun l => T l ∨ l = .phi t (w.uid + 1)) [] w w' (lines (br ++ copies ++
        [gotoToken opts (.block e)] ++ [.label (.phi t (w.uid + 1))] ++ trueCopies ++
        [gotoToken opts (.block t)])) := by
      refine hkept.congr (by simp [Line.labels, gotoToken]) (fun l hl => ?_)
        (by simp +contextual [Line.slotEnds, gotoToken])
      simp only [lines_append, lines_cons, lines_nil, targets_append, targets_cons, targets_nil,
        Line.targets, gotoToken, List.mem_append, List.mem_singleton, List.not_mem_nil,
        or_false] at hl ⊢
      rcases hl with (((hl | hl) | rfl) | hl) | rfl
      · exact .inl (.inl (.inl hl))
      · exact .inl (.inl (.inr hl))
      · exact .inr (.inr (.inl he))
      · exact .inl (.inr hl)
      · exact .inr (.inr (.inl ht))
    refine ⟨hcode.close ?_, ?_, ?_⟩
    · rintro l (hl | rfl)
      · exact .inl hl
      · exact .inr (by simp [Line.labels])
    · exact htrue'.localVars.trans (hw₄ ▸ hcopies'.localVars)
    · exact htrue'.usedRegisters.trans (hw₄ ▸ hcopies'.usedRegisters)

/-- The blocks that a branch goes to. -/
def BranchInst.successors : BranchInst → List ℕ
  | .unconditional _ dest => [dest]
  | .conditional _ _ t e => [t, e]

theorem safe_printBranchInstruction {inst : BranchInst} (hinst : inst.WellFormed ⟨vars, f.phis⟩)
    (htargets : ∀ b ∈ inst.successors, T (.block b)) :
    Safe T vars lines (printBranchInstruction opts f inst) := by
  cases inst with
  | unconditional src dest =>
      exact safe_printBranch hphis (htargets dest (by simp [BranchInst.successors]))
  | conditional src cond t e =>
      refine (safe_printValueLoad hinst).bind fun load =>
        SafeAfter.bind (safe_printBranchIf hphis (htargets t (by simp [BranchInst.successors]))
          (htargets e (by simp [BranchInst.successors]))) fun br =>
            .ret_of_eq (by simp) (by simp) (by simp)

end branches

/-! ## Operands -/

/-- The values that an operation loads, apart from the function of an indirect call and the address
of an `indirectbr`. -/
def IntrinsicInst.operands : IntrinsicInst → List Value
  | .vaStart list => [list]
  | .vaCopy dest src => [dest, src]
  | .mem _ dest source length _ _ => [dest, source, length]
  | .math _ operands => operands
  | .bswap _ parameter => [.var parameter]
  | .smax left right => [left, right]
  | _ => []

def BranchInst.condition : BranchInst → Option Value
  | .unconditional _ _ => none
  | .conditional _ cond _ _ => some cond

def Operation.operands : Operation → List Value
  | .ret v => v.toList
  | .arithmetic _ left right => [left, right]
  | .fneg v => [v]
  | .cast _ v _ => [v]
  | .cmp _ left right => [left, right]
  | .br inst => inst.condition.toList
  | .select cond trueVal falseVal => [cond, trueVal, falseVal]
  | .load address _ => [address]
  | .store address val => [address, val]
  | .getElementPtr v indices => v :: indices.map Prod.snd
  | .call _ _ args => args
  | .intrinsic inst => inst.operands
  | .alloca _ arraySize => [arraySize]
  | .vaArg list _ => [list]
  | _ => []

/-- The function of an indirect call, or the address of an `indirectbr`.  Inline assembly and a
constant address have no local variable before they are used. -/
def Operation.register : Operation → Option Local
  | .call (.var v) _ _ => some v
  | .indirectBr address _ => some address
  | _ => none

def Operation.isIndirectBr : Operation → Bool
  | .indirectBr _ _ => true
  | _ => false

/-- The blocks that an operation goes to by their numbers. -/
def Operation.successors : Operation → List ℕ
  | .br inst => inst.successors
  | .switch cases defaultDest => defaultDest :: cases.map Prod.snd
  | _ => []

section operations

variable {T : Label → Prop} {vars : List Local} {opts : GenerationOpts}

theorem safe_lines {x : Emit Code} (hx : Safe T vars lines x) :
    Safe T vars id (do return lines (← x)) :=
  hx.bind fun _ => .ret_of_eq rfl rfl rfl

theorem safe_printArguments {args : List Value} (h : ∀ v ∈ args, v.In vars) :
    Safe T vars lines (printArguments opts args) := by
  induction args with
  | nil => exact safe_pure (by simp [Plain])
  | cons v args ih =>
      have htail := ih fun u hu => h u (List.mem_cons_of_mem v hu)
      exact (safe_printValueLoad (h v List.mem_cons_self)).bind fun load =>
        SafeAfter.bind htail fun rest => .ret_of_eq (by simp) (by simp) (by simp)

theorem safe_printPackCalls {args : List Value} (h : ∀ v ∈ args, v.In vars) :
    Safe T vars lines (printPackCalls opts args) := by
  induction args with
  | nil => exact safe_pure (by simp [Plain])
  | cons v args ih =>
      have htail := ih fun u hu => h u (List.mem_cons_of_mem v hu)
      exact (safe_printValueLoad (h v List.mem_cons_self)).bind fun load =>
        SafeAfter.bind htail fun rest => .ret_of_eq (by simp [Line.labels])
        (by simp [Line.targets]) (by simp [Line.slotEnds])

theorem safe_printOperandPack {args : List Value} (h : ∀ v ∈ args, v.In vars) :
    Safe T vars lines (printOperandPack opts args) := by
  refine (safe_printPackCalls h).bind fun calls => .ret_of_eq ?_ ?_ ?_
  · split_ifs <;> simp [Line.labels]
  · split_ifs <;> simp [Line.targets]
  · split_ifs <;> simp [Line.slotEnds]

theorem safe_printVariadic (ty : FunctionType) {args : List Value} (h : ∀ v ∈ args, v.In vars) :
    Safe T vars lines (printVariadic opts ty args) := by
  unfold printVariadic
  split_ifs
  · exact safe_printOperandPack fun v hv => h v (List.mem_of_mem_drop hv)
  · exact safe_pure (by simp [Plain])

theorem safe_printSelectInstruction {cond trueVal falseVal : Value} (hc : cond.In vars)
    (ht : trueVal.In vars) (hf : falseVal.In vars) :
    Safe T vars lines (printSelectInstruction opts cond trueVal falseVal) :=
  safe_select (safe_printValueLoad hc) (safe_printValueLoad ht) (safe_printValueLoad hf)

theorem safe_printCastInstruction (op : CastOp) {v : Value} (hv : v.In vars) (ty srcTy : Ty) :
    Safe T vars lines (printCastInstruction opts op v ty srcTy) :=
  safe_unary (safe_printValueLoad hv) (plain_castCode op ty srcTy)

theorem safe_printIndirectLoad {address : Value} (h : address.In vars) (ty : Ty) :
    Safe T vars lines (printIndirectLoad opts address ty) :=
  safe_unary (safe_printValueLoad h) (by simp [Plain, Line.isPlain])

theorem safe_printGepIndices {indices : List (GepType × Value)}
    (h : ∀ i ∈ indices, i.2.In vars) : Safe T vars lines (printGepIndices opts indices) := by
  induction indices with
  | nil => exact safe_pure (by simp [Plain])
  | cons i indices ih =>
      have htail := ih fun j hj => h j (List.mem_cons_of_mem i hj)
      exact (safe_printGepIndex .jvm i.1 i.2.constant i.2.type
        (safe_printValueLoad (h i List.mem_cons_self))).bind fun _ =>
          SafeAfter.bind htail fun _ => .ret_of_eq (by simp) (by simp) (by simp)

theorem safe_printGepInstruction {v : Value} {indices : List (GepType × Value)} (hv : v.In vars)
    (h : ∀ i ∈ indices, i.2.In vars) : Safe T vars lines (printGepInstruction opts v indices) :=
  (safe_printCastInstruction .inttoptr hv .pointer v.type).bind fun _ =>
    SafeAfter.bind (safe_printGepIndices h) fun _ => .ret_of_eq (by simp) (by simp) (by simp)

theorem plain_printPtrLoad (n : ℕ) : Plain (lines (printPtrLoad opts n)) :=
  .of_isPush (isPush_printConstLoadInt _)

theorem safe_printAllocaInstruction (ty : Ty) {arraySize : Value} (h : arraySize.In vars) :
    Safe T vars lines (printAllocaInstruction opts ty arraySize) := by
  unfold printAllocaInstruction
  simp only
  split
  · exact safe_pure (by simpa using (plain_printPtrLoad _).append (by simp [Plain, Line.isPlain]))
  · refine (safe_printValueLoad h).bind fun load => .ret_of_eq ?_ ?_ ?_
    · simp [(plain_printPtrLoad _).labels_eq, Line.labels]
    · simp [(plain_printPtrLoad _).targets_eq, Line.targets]
    · simp [(plain_printPtrLoad _).slotEnds_eq, Line.slotEnds]

theorem safe_printVAArgInstruction {list : Value} (h : list.In vars) (ty : Ty) :
    Safe T vars lines (printVAArgInstruction opts list ty) := by
  refine (safe_printIndirectLoad h .pointer).bind fun first =>
    SafeAfter.bind (safe_printValueLoad h) fun second => .ret_of_eq ?_ ?_ ?_
  · simp [(plain_printPtrLoad _).labels_eq, Line.labels]
  · simp [(plain_printPtrLoad _).targets_eq, Line.targets]
  · simp [(plain_printPtrLoad _).slotEnds_eq, Line.slotEnds]

theorem safe_printMathOperand (f32 : Bool) {v : Value} (hv : v.In vars) :
    Safe T vars lines (printMathOperand opts f32 v) :=
  safe_unary (safe_printValueLoad hv) (by split_ifs <;> simp [Plain, Line.isPlain])

theorem safe_printMathIntrinsic (fn : MathFunction) {operands : List Value}
    (h : ∀ v ∈ operands, v.In vars) : Safe T vars id (printMathIntrinsic opts fn operands) := by
  unfold printMathIntrinsic
  split
  · next first rest =>
      have hrest : Safe T vars lines
          (printMathRest opts (getBitWidth first.type false = 32) rest) := by
        cases rest with
        | nil => exact safe_pure (by simp [Plain])
        | cons second rest => exact safe_printMathOperand _ (h second (by simp))
      refine (safe_printMathOperand _ (h first (by simp))).bind fun l =>
        SafeAfter.bind hrest fun r => .ret_of_eq ?_ ?_ ?_
      · split_ifs <;> simp [Line.labels]
      · split_ifs <;> simp [Line.targets]
      · split_ifs <;> simp [Line.slotEnds]
  · exact safe_unreachable

/-- The pointer to the variadic arguments is in a local variable of its own. -/
theorem printVaStart_prints {vaArgNum : ℕ} {list : Value} (h : list.In vars) {w w' : Writer}
    (hw : Ready vars w) (hva : vaArgNum < w.usedRegisters) {ls : List Line}
    (hprint : printIntrinsicCall opts vaArgNum (.vaStart list) w = some (ls, w')) :
    PrintsOnly T w w' ls := by
  obtain ⟨load, w₁, hload, h₁⟩ := emit_bind_eq_some hprint
  cases h₁
  have hprints := safe_printValueLoad (T := T) h hw hload
  refine hprints.congr (by simp [Line.labels]) (by simp +contextual [Line.targets]) fun n hn => ?_
  simp only [lines_append, lines_cons, lines_nil, slotEnds_append, slotEnds_cons, slotEnds_nil,
    Line.slotEnds, List.append_nil, List.mem_append, List.mem_singleton] at hn
  refine hn.imp_right fun heq => ?_
  rw [heq, hprints.usedRegisters]
  exact hva

theorem safe_printIntrinsicCall (vaArgNum : ℕ) {inst : IntrinsicInst}
    (h : ∀ v ∈ inst.operands, v.In vars) (hinst : ∀ list, inst ≠ .vaStart list) :
    Safe T vars id (printIntrinsicCall opts vaArgNum inst) := by
  cases inst with
  | vaStart list => exact (hinst list rfl).elim
  | vaCopy dest src =>
      exact (safe_printValueLoad (h dest (by simp [IntrinsicInst.operands]))).bind fun _ =>
        SafeAfter.bind (safe_printValueLoad (h src (by simp [IntrinsicInst.operands]))) fun _ =>
          .ret_of_eq (by simp [Line.labels])
        (by simp [Line.targets]) (by simp [Line.slotEnds])
  | vaEnd => exact safe_pure (by simp [Plain])
  | mem op dest source length width last =>
      have hlast : Plain (lines (printConstLoadInt opts last)) :=
        .of_isPush (isPush_printConstLoadInt _)
      refine (safe_printValueLoad (h dest (by simp [IntrinsicInst.operands]))).bind fun _ =>
        SafeAfter.bind (safe_printValueLoad (h source (by simp [IntrinsicInst.operands]))) fun _ =>
          SafeAfter.bind (safe_printValueLoad (h length (by simp [IntrinsicInst.operands])))
            fun _ => .ret_of_eq ?_ ?_ ?_
      · simp [hlast.labels_eq, Line.labels]
      · simp [hlast.targets_eq, Line.targets]
      · simp [hlast.slotEnds_eq, Line.slotEnds]
  | fltRounds => exact safe_pure (by simp [Plain, Line.isPlain])
  | ignored => exact safe_pure (by simp [Plain])
  | math fn operands => exact safe_printMathIntrinsic fn h
  | smulWithOverflow => exact safe_pure (by simp [Plain, Line.isPlain])
  | bswap ty parameter =>
      exact (safe_printValueLoad (h (.var parameter) (by simp [IntrinsicInst.operands]))).bind
        fun _ => .ret_of_eq (by simp [virtualInstruction, Line.labels])
        (by simp [virtualInstruction, Line.targets]) (by simp [virtualInstruction, Line.slotEnds])
  | smax left right =>
      exact (safe_printValueLoad (h left (by simp [IntrinsicInst.operands]))).bind fun _ =>
        SafeAfter.bind (safe_printValueLoad (h right (by simp [IntrinsicInst.operands]))) fun _ =>
          .ret_of_eq (by simp [virtualInstruction, Line.labels])
        (by simp [virtualInstruction, Line.targets]) (by simp [virtualInstruction, Line.slotEnds])

end operations

/-! ## What an operation does to the local variables -/

/-- `getLocalVarNumber`, without the number. -/
def Writer.touch (w : Writer) (v : Local) : Writer :=
  match w.localVars.lookup v.id with
  | some _ => w
  | none => { w with
      localVars := (v.id, w.usedRegisters) :: w.localVars
      usedRegisters := w.usedRegisters + v.ty.registers }

theorem getLocalVarNumber_touch {v : Local} {w w' : Writer} {n : ℕ}
    (h : getLocalVarNumber v w = some (n, w')) : w' = w.touch v ∧ (w.touch v).Has v n := by
  unfold Writer.touch Writer.Has
  simp only [getLocalVarNumber, emit_bind, emit_get, Option.bind_some] at h
  cases hlookup : w.localVars.lookup v.id with
  | some k =>
      rw [hlookup] at h
      cases h
      exact ⟨rfl, hlookup⟩
  | none =>
      rw [hlookup] at h
      cases h
      exact ⟨rfl, by simp⟩

theorem later_touch (w : Writer) (v : Local) : Later w (w.touch v) := by
  unfold Writer.touch
  split
  · exact .refl w
  · exact ⟨le_rfl, le_rfl, Nat.le_add_right _ _⟩

theorem lastLabel_touch (w : Writer) (v : Local) : (w.touch v).lastLabel = w.lastLabel := by
  unfold Writer.touch
  split <;> rfl

theorem isSome_lookup_touch (w : Writer) (v : Local) (id : ℕ) :
    ((w.touch v).localVars.lookup id).isSome ↔ (w.localVars.lookup id).isSome ∨ id = v.id := by
  unfold Writer.touch
  cases hlookup : w.localVars.lookup v.id with
  | some k =>
      refine ⟨.inl, fun h => h.elim (fun h => h) ?_⟩
      rintro rfl
      exact Option.isSome_iff_exists.mpr ⟨k, hlookup⟩
  | none =>
      simp only [List.lookup_cons]
      by_cases hid : id = v.id
      · simp [hid]
      · simp [beq_eq_false_iff_ne.mpr hid, hid]

/-- A value that has a local variable keeps it; a new one gets the next. -/
theorem lookup_touch {w : Writer} {v : Local} {id n : ℕ}
    (h : (w.touch v).localVars.lookup id = some n) :
    w.localVars.lookup id = some n ∨ w.localVars.lookup v.id = none ∧ id = v.id ∧
      n = w.usedRegisters ∧ (w.touch v).usedRegisters = w.usedRegisters + v.ty.registers := by
  unfold Writer.touch at h ⊢
  cases hlookup : w.localVars.lookup v.id with
  | some k =>
      rw [hlookup] at h
      exact .inl h
  | none =>
      rw [hlookup] at h
      simp only [List.lookup_cons] at h
      by_cases hid : id = v.id
      · rw [beq_iff_eq.mpr hid] at h
        exact .inr ⟨rfl, hid, (Option.some.inj h).symm, rfl⟩
      · rw [beq_eq_false_iff_ne.mpr hid] at h
        exact .inl h

theorem Writer.Has.touch {w : Writer} {u : Local} {n : ℕ} (h : w.Has u n) (v : Local) :
    (w.touch v).Has u n := by
  unfold Writer.Has Writer.touch at *
  cases hlookup : w.localVars.lookup v.id with
  | some k => exact h
  | none =>
      have hne : u.id ≠ v.id := by
        intro heq
        rw [heq, hlookup] at h
        cases h
      simp only [List.lookup_cons, beq_eq_false_iff_ne.mpr hne]
      exact h

theorem Ready.touch {vars : List Local} {w : Writer} (h : Ready vars w) (v : Local) :
    Ready vars (w.touch v) := by
  have hle := (later_touch w v).usedRegisters_le
  refine ⟨fun l hl => (h.last l (lastLabel_touch w v ▸ hl)).mono (later_touch w v),
    fun u hu => (isSome_lookup_touch w v u.id).mpr (.inl (h.has u hu)), fun id n hn => ?_,
    fun u hu n hn => ?_⟩
  · rcases lookup_touch hn with hold | ⟨-, -, rfl, hused⟩
    · exact (h.given id n hold).trans_le hle
    · have hpos := v.ty.registers_pos
      omega
  · rcases lookup_touch hn with hold | ⟨hnone, hid, -, -⟩
    · exact (h.room u hu n hold).trans hle
    · have hhas := h.has u hu
      rw [hid, hnone] at hhas
      cases hhas

/-- The local variables after an operation. -/
def Writer.after (w : Writer) (op : Operation) : Writer :=
  match op.register with
  | some v => w.touch v
  | none => if op.isSetjmp then { w with usedRegisters := w.usedRegisters + 1 } else w

/-- The lines of a call of `setjmp`, which keeps the number of the jump in the local variable
`n`. -/
def StoresJump (ls : List Line) (n : ℕ) : Prop :=
  ∃ operands callee rest, ls = lines operands ++ [.call callee] ++
    lines [.store .i .plain n, .const .i 0, .label (.setjmp n)] ++ rest

theorem StoresJump.append {ls : List Line} {n : ℕ} (h : StoresJump ls n) (js : List Line) :
    StoresJump (ls ++ js) n := by
  obtain ⟨operands, callee, rest, rfl⟩ := h
  exact ⟨operands, callee, rest ++ js, by rw [List.append_assoc]⟩

/-- The lines of an operation: only a call of `setjmp` defines a label for a jump. -/
structure PrintsOp (T : Label → Prop) (op : Operation) (w w' : Writer) (ls : List Line) : Prop
    extends Prints T [] w w' ls where
  localVars : w'.localVars = (w.after op).localVars
  usedRegisters : w'.usedRegisters = (w.after op).usedRegisters
  setjmp : ∀ n, .setjmp n ∈ labels ls ↔ op.isSetjmp = true ∧ n = w.usedRegisters
  stores : op.isSetjmp = true → StoresJump ls w.usedRegisters

section operation

variable {T : Label → Prop} {vars : List Local} {opts : GenerationOpts}

theorem PrintsOnly.toOp {op : Operation} {w w' : Writer} {ls : List Line}
    (h : PrintsOnly T w w' ls) (hregister : op.register = none) (hsetjmp : op.isSetjmp = false) :
    PrintsOp T op w w' ls := by
  have hafter : w.after op = w := by
    unfold Writer.after
    simp only [hregister, hsetjmp]
    rfl
  refine ⟨h.toPrints, hafter.symm ▸ h.localVars, hafter.symm ▸ h.usedRegisters, fun n => ?_,
    by simp [hsetjmp]⟩
  rw [hsetjmp]
  refine iff_of_false (fun hl => ?_) (by simp)
  rcases h.new _ hl with hnew | hkept
  · have hused := h.usedRegisters
    simp only [NewLabel] at hnew
    omega
  · cases hkept

theorem PrintsOnly.toOp_touch {op : Operation} {w w' : Writer} {ls : List Line} {v : Local}
    (h : PrintsOnly T (w.touch v) w' ls) (hregister : op.register = some v)
    (hsetjmp : op.isSetjmp = false) : PrintsOp T op w w' ls := by
  have hafter : w.after op = w.touch v := by
    unfold Writer.after
    simp only [hregister]
  refine ⟨h.toPrints.keep (later_touch w v) (lastLabel_touch w v) (by simp),
    hafter.symm ▸ h.localVars, hafter.symm ▸ h.usedRegisters, fun n => ?_,
    by simp [hsetjmp]⟩
  rw [hsetjmp]
  refine iff_of_false (fun hl => ?_) (by simp)
  rcases h.new _ hl with hnew | hkept
  · have hused := h.usedRegisters
    simp only [NewLabel] at hnew
    omega
  · cases hkept

/-- The code of a call without what follows a `setjmp`. -/
def CallCode.lines (c : CallCode) : List Line := Backend.lines c.operands ++ [.call c.callee]

theorem safe_printFunctionCall {functionVal : Value} {ty : FunctionType} {args : List Value}
    (hval : functionVal.In vars) (hargs : ∀ v ∈ args, v.In vars) :
    Safe T vars CallCode.lines (printFunctionCall opts functionVal ty args) := by
  unfold printFunctionCall
  split
  · next f =>
      exact (safe_printArguments fun v hv => hargs v (List.mem_of_mem_take hv)).bind fun _ =>
        SafeAfter.bind (safe_printVariadic f.type hargs) fun _ =>
          .ret_of_eq (by simp [CallCode.lines, Line.labels])
        (by simp [CallCode.lines, Line.targets]) (by simp [CallCode.lines, Line.slotEnds])
  · exact (safe_printValueLoad hval).bind fun _ =>
      SafeAfter.bind (safe_printOperandPack hargs) fun _ =>
        .ret_of_eq (by simp [CallCode.lines, Line.labels])
        (by simp [CallCode.lines, Line.targets]) (by simp [CallCode.lines, Line.slotEnds])

/-- A call through a value gives it a register, if it has none. -/
theorem printFunctionCall_touch {v : Local} (hv : v.ty.registers = 1) {ty : FunctionType}
    {args : List Value} (hargs : ∀ u ∈ args, u.In vars) {w w' : Writer} (hw : Ready vars w)
    {call : CallCode}
    (hprint : printFunctionCall opts (.var v) ty args w = some (call, w')) :
    PrintsOnly T (w.touch v) w' call.lines := by
  rw [printFunctionCall_indirect opts (by simp)] at hprint
  obtain ⟨load, w₁, hload, h₁⟩ := emit_bind_eq_some hprint
  obtain ⟨packed, w₂, hpack, h₂⟩ := emit_bind_eq_some h₁
  cases h₂
  obtain ⟨n, w₃, hn, h₃⟩ := emit_bind_eq_some hload
  cases h₃
  obtain ⟨rfl, hn'⟩ := getLocalVarNumber_touch hn
  have hprints := safe_printOperandPack (T := T) hargs (hw.touch v) hpack
  refine hprints.congr ?_ ?_ ?_
  · simp [CallCode.lines, Line.labels]
  · intro l hl
    simp only [CallCode.lines, lines_append, lines_cons, lines_nil, targets_append, targets_cons,
      targets_nil, Line.targets, List.append_nil, List.nil_append] at hl
    exact .inl hl
  · intro k hk
    simp only [CallCode.lines, lines_append, lines_cons, lines_nil, slotEnds_append,
      slotEnds_cons, slotEnds_nil, Line.slotEnds, List.append_nil, List.mem_append,
      List.mem_singleton] at hk
    refine hk.symm.imp_right fun heq => ?_
    have hgiven := (hw.touch v).given v.id n hn'
    rw [heq, prefixRegisters_letter, hv, hprints.usedRegisters]
    exact hgiven

theorem printSetjmp_prints {w w' : Writer} (hw : Ready vars w) {code : Code}
    (hprint : printSetjmp true w = some (code, w')) :
    Prints T [] w w' (lines code) ∧ w'.localVars = w.localVars ∧
      w'.usedRegisters = w.usedRegisters + 1 ∧
      code = [.store .i .plain w.usedRegisters, .const .i 0, .label (.setjmp w.usedRegisters)] := by
  unfold printSetjmp at hprint
  rw [if_pos rfl] at hprint
  obtain ⟨w₁, w₂, hget, h₁⟩ := emit_bind_eq_some hprint
  obtain ⟨_, w₃, hset, h₂⟩ := emit_bind_eq_some h₁
  obtain ⟨label, w₄, hlabel, h₃⟩ := emit_bind_eq_some h₂
  cases hget
  cases hset
  cases h₃
  have hlater : Later w { w with usedRegisters := w.usedRegisters + 1 } :=
    ⟨le_rfl, le_rfl, Nat.le_succ _⟩
  have hnew : NewLabel w { w with usedRegisters := w.usedRegisters + 1 }
      (.setjmp w.usedRegisters) := by simp [NewLabel]
  obtain ⟨rfl, rfl, hlabel⟩ := Prints.label (T := T) hnew.old (hw.last_ne hnew) hlabel
  refine ⟨(hlabel.keep hlater rfl (by simpa using hnew)).congr ?_ ?_ ?_, rfl, rfl, rfl⟩
  · simp [Line.labels]
  · simp [Line.targets]
  · simp [Line.slotEnds, prefixRegisters]

theorem printsOp_printCall {functionVal : Value} {ty : FunctionType} {args : List Value}
    (hval : ∀ v, functionVal = .var v → v.ty.registers = 1) (hargs : ∀ v ∈ args, v.In vars)
    {w w' : Writer} (hw : Ready vars w) {ls : List Line}
    (hprint : printCall opts functionVal ty args w = some (ls, w')) :
    PrintsOp T (.call functionVal ty args) w w' ls := by
  obtain ⟨call, w₁, hcall, h₁⟩ := emit_bind_eq_some hprint
  obtain ⟨after, w₂, hafter, h₂⟩ := emit_bind_eq_some h₁
  clear hprint h₁
  cases h₂
  cases hset : (Operation.call functionVal ty args).isSetjmp with
  | false =>
      rw [hset] at hafter
      cases hafter
      rw [lines_nil, List.append_nil]
      cases functionVal with
      | var v => exact (printFunctionCall_touch (hval v rfl) hargs hw hcall).toOp_touch rfl hset
      | const c =>
          exact (safe_printFunctionCall (show (Value.const c).In vars from trivial) hargs hw
            hcall).toOp rfl
            hset
  | true =>
      rw [hset] at hafter
      cases functionVal with
      | var v => cases hset
      | const c =>
          have hcall' := safe_printFunctionCall (T := T) (show (Value.const c).In vars from trivial)
            hargs hw hcall
          obtain ⟨hprints, hvars, hused, rfl⟩ :=
            printSetjmp_prints (T := T) (hw.after hcall') hafter
          have hstate : w.after (.call (.const c) ty args) =
              { w with usedRegisters := w.usedRegisters + 1 } := by
            unfold Writer.after
            simp only [Operation.register, hset, if_true]
          refine ⟨hcall'.toPrints.append hprints, ?_, ?_, fun n => ?_, fun _ =>
            ⟨call.operands, call.callee, [], by simp [hcall'.usedRegisters]⟩⟩
          · rw [hstate]
            exact hvars.trans hcall'.localVars
          · rw [hstate, hused, hcall'.usedRegisters]
          · have hbefore : .setjmp n ∉ labels call.lines := by
              intro hl
              rcases hcall'.new _ hl with hnew | hkept
              · have hused := hcall'.usedRegisters
                simp only [NewLabel] at hnew
                omega
              · cases hkept
            rw [show lines call.operands ++ [.call call.callee] = call.lines from rfl,
              labels_append, hcall'.usedRegisters]
            simp [hbefore, hset, Line.labels]

end operation

end Llxvm.Backend
