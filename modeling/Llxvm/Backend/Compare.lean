import Llxvm.Backend.Locals

/-!
# Integer comparisons

`printCmpInstruction` calls the method `icmp_*` of the runtime for `int` or `long`.  The
unsigned order of narrow values is decided on their sign extensions, by a signed comparison
that exchanges its operands when the signs differ.
-/

namespace Llxvm.Backend

open Llxvm.Jvm Llxvm.Runtime SignExtend

/-- The integer predicates of LLVM. -/
def llvmCompare {n : ℕ} (pred : Instruction.Predicate) (x y : BitVec n) : Bool :=
  match pred with
  | .eq => x == y
  | .ne => x != y
  | .sgt => y.slt x
  | .sge => y.sle x
  | .slt => x.slt y
  | .sle => x.sle y
  | .ugt => y.ult x
  | .uge => y.ule x
  | .ult => x.ult y
  | .ule => x.ule y

/-- The floating point predicates of LLVM: of a NaN the ordered ones are false and the unordered
ones true.  Otherwise the numbers are compared. -/
def llvmFloatCompare {n : ℕ} (F : FloatFormat) (pred : Instruction.FloatPredicate)
    (x y : BitVec n) : Bool :=
  let unordered := Instruction.isNaN F x || Instruction.isNaN F y
  match pred with
  | .oeq => !unordered && decide (F.ofBits x = F.ofBits y)
  | .ogt => !unordered && decide (F.ofBits y < F.ofBits x)
  | .oge => !unordered && decide (F.ofBits y ≤ F.ofBits x)
  | .olt => !unordered && decide (F.ofBits x < F.ofBits y)
  | .ole => !unordered && decide (F.ofBits x ≤ F.ofBits y)
  | .one => !unordered && decide (F.ofBits x ≠ F.ofBits y)
  | .ord => !unordered
  | .ueq => unordered || decide (F.ofBits x = F.ofBits y)
  | .ugt => unordered || decide (F.ofBits y < F.ofBits x)
  | .uge => unordered || decide (F.ofBits y ≤ F.ofBits x)
  | .ult => unordered || decide (F.ofBits x < F.ofBits y)
  | .ule => unordered || decide (F.ofBits x ≤ F.ofBits y)
  | .une => unordered || decide (F.ofBits x ≠ F.ofBits y)
  | .uno => unordered

/-! ## The methods of the runtime -/

/-- The relational operators of Java on floating point values are false of a NaN, which the methods
make up for. -/
theorem fcmp_eq_llvmFloatCompare {n : ℕ} (F : FloatFormat) (pred : Instruction.FloatPredicate)
    (x y : BitVec n) : Instruction.fcmp F pred x y = llvmFloatCompare F pred x y := by
  have hlt := fun a b : BitVec n => Instruction.ofBits_lt_iff F a b
  have hle := fun a b : BitVec n => Instruction.ofBits_le_iff F a b
  have heq := Instruction.ofBits_eq_iff F x y
  cases pred <;>
    simp only [Instruction.fcmp, llvmFloatCompare, Instruction.fcmpOrd, Instruction.fcmpUno,
      Instruction.floatEq, Instruction.floatLt, Instruction.floatLe, hlt, hle, ne_eq, heq] <;>
    cases Instruction.isNaN F x <;> cases Instruction.isNaN F y <;> simp [beq_eq_decide]

section icmp

variable {n p : ℕ}

theorem xor_nonneg_iff (x y : BitVec n) : 0 ≤ (x ^^^ y).toInt ↔ x.msb = y.msb := by
  rw [Instruction.toInt_nonneg_iff, BitVec.msb_xor]
  cases x.msb <;> cases y.msb <;> decide

theorem icmpUnsigned_slt (x y : BitVec n) : Instruction.icmpUnsigned BitVec.slt x y = x.ult y := by
  unfold Instruction.icmpUnsigned
  split_ifs with h
  · exact BitVec.slt_eq_ult_of_msb_eq ((xor_nonneg_iff x y).mp h)
  · have hne : x.msb ≠ y.msb := fun heq => h ((xor_nonneg_iff x y).mpr heq)
    rw [BitVec.slt_eq_not_ult_of_msb_neq hne.symm, BitVec.ult_eq_msb_of_msb_neq hne.symm,
      BitVec.ult_eq_msb_of_msb_neq hne, Bool.eq_not_of_ne hne, Bool.not_not]

theorem icmpUnsigned_sle (x y : BitVec n) : Instruction.icmpUnsigned BitVec.sle x y = x.ule y := by
  unfold Instruction.icmpUnsigned
  split_ifs with h
  · rw [BitVec.sle_eq_not_slt, BitVec.ule_eq_not_ult,
      BitVec.slt_eq_ult_of_msb_eq ((xor_nonneg_iff x y).mp h).symm]
  · have hne : x.msb ≠ y.msb := fun heq => h ((xor_nonneg_iff x y).mpr heq)
    rw [BitVec.sle_eq_not_slt, BitVec.ule_eq_not_ult, BitVec.slt_eq_not_ult_of_msb_neq hne,
      BitVec.ult_eq_msb_of_msb_neq hne, BitVec.ult_eq_msb_of_msb_neq hne.symm,
      Bool.eq_not_of_ne hne, Bool.not_not]

/-- The other two unsigned comparisons have their operands exchanged. -/
theorem icmpUnsigned_flip (cmp : BitVec n → BitVec n → Bool) (x y : BitVec n) :
    Instruction.icmpUnsigned (fun a b => cmp b a) x y = Instruction.icmpUnsigned cmp y x := by
  unfold Instruction.icmpUnsigned
  rw [BitVec.xor_comm]

/-- The methods decide the predicates at the width of their operands. -/
theorem icmp_eq_llvmCompare (pred : Instruction.Predicate) (x y : BitVec n) :
    Instruction.icmp pred x y = llvmCompare pred x y := by
  cases pred with
  | eq => rfl
  | ne => rfl
  | sgt => rfl
  | sge => rfl
  | slt => rfl
  | sle => rfl
  | ugt => exact (icmpUnsigned_flip BitVec.slt x y).trans (icmpUnsigned_slt y x)
  | uge => exact (icmpUnsigned_flip BitVec.sle x y).trans (icmpUnsigned_sle y x)
  | ult => exact icmpUnsigned_slt x y
  | ule => exact icmpUnsigned_sle x y

/-- Sign extension keeps both orders: it moves the upper half of the unsigned values to the
upper end of the wider range. -/
theorem llvmCompare_signExtend (hn : 0 < n) (h : n ≤ p) (pred : Instruction.Predicate)
    (x y : BitVec n) :
    llvmCompare pred (x.signExtend p) (y.signExtend p) = llvmCompare pred x y := by
  have heq : (x.signExtend p = y.signExtend p) ↔ x = y :=
    ⟨fun h' => signExtend_injective h h', fun h' => h' ▸ rfl⟩
  have hslt : ∀ x y : BitVec n, (x.signExtend p).slt (y.signExtend p) = x.slt y := by
    intro x y
    simp only [BitVec.slt, BitVec.toInt_signExtend_of_le h]
  have hult : ∀ x y : BitVec n, (x.signExtend p).ult (y.signExtend p) = x.ult y := by
    intro x y
    have hwide : (x.signExtend p).slt (y.signExtend p) = _ := BitVec.slt_eq_ult
    rw [hslt, BitVec.slt_eq_ult, Instruction.msb_signExtend_of_le hn h,
      Instruction.msb_signExtend_of_le hn h] at hwide
    exact Bool.xor_right_inj.mp hwide.symm
  cases pred with
  | eq => exact Bool.eq_iff_iff.mpr (by simpa [llvmCompare] using heq)
  | ne => exact Bool.eq_iff_iff.mpr (by simpa [llvmCompare] using not_congr heq)
  | sgt => exact hslt y x
  | sge => simp only [llvmCompare, BitVec.sle_eq_not_slt, hslt]
  | slt => exact hslt x y
  | sle => simp only [llvmCompare, BitVec.sle_eq_not_slt, hslt]
  | ugt => exact hult y x
  | uge => simp only [llvmCompare, BitVec.ule_eq_not_ult, hult]
  | ult => exact hult x y
  | ule => simp only [llvmCompare, BitVec.ule_eq_not_ult, hult]

end icmp

/-! ## The printed call -/

def printCmpInstruction (opts : GenerationOpts) (pred : CmpPredicate) (left right : Value) :
    Emit Code := do
  let l ← printValueLoad opts left
  let r ← printValueLoad opts right
  return l ++ r ++ cmpCode pred left.type

/-- The types that `icmp` compares, with the width of their values. -/
def Compared (ty : Ty) (w : IntWidth) : Prop :=
  ty = .int w ∧ w ∈ [IntWidth.w8, .w16, .w32, .w64] ∨ ty = .pointer ∧ w = .w32

section compare

variable {env : Env} {ty : Ty} {w : IntWidth}

/-- The method is the one for the type of the local variables. -/
theorem acts_icmp (h : Compared ty w) (pred : Instruction.Predicate) (x y : BitVec w.bits) :
    Acts env (cmpCode (.icmp pred) ty) [represent y, represent x]
      (some (.ok (.int (if llvmCompare pred x y then 1#32 else 0#32)))) := by
  have hint : ∀ x' y' : BitVec 32, getTypeDescriptor ty true = .I → represent x = .int x' →
      represent y = .int y' → Acts env (cmpCode (.icmp pred) ty) [represent y, represent x]
        (some (.ok (.int (if llvmCompare pred x' y' then 1#32 else 0#32)))) := by
    intro x' y' hdesc hx hy
    rw [cmpCode, hdesc, hx, hy, ← icmp_eq_llvmCompare]
    exact acts_invoke (m := .icmp pred .I) rfl rfl
  have hlong : ∀ x' y' : BitVec 64, getTypeDescriptor ty true = .J → represent x = .long x' →
      represent y = .long y' → Acts env (cmpCode (.icmp pred) ty) [represent y, represent x]
        (some (.ok (.int (if llvmCompare pred x' y' then 1#32 else 0#32)))) := by
    intro x' y' hdesc hx hy
    rw [cmpCode, hdesc, hx, hy, ← icmp_eq_llvmCompare]
    exact acts_invoke (m := .icmp pred .J) rfl rfl
  obtain ⟨rfl, hw⟩ | ⟨rfl, rfl⟩ := h
  · simp only [List.mem_cons, List.not_mem_nil, or_false] at hw
    rcases hw with rfl | rfl | rfl | rfl
    · rw [← llvmCompare_signExtend (p := 32) (by decide) (by decide)]
      exact hint _ _ rfl rfl rfl
    · rw [← llvmCompare_signExtend (p := 32) (by decide) (by decide)]
      exact hint _ _ rfl rfl rfl
    · rw [← llvmCompare_signExtend (p := 32) (by decide) (by decide)]
      exact hint _ _ rfl rfl rfl
    · rw [← llvmCompare_signExtend (p := 64) (by decide) (by decide)]
      exact hlong _ _ rfl rfl rfl
  · rw [← llvmCompare_signExtend (p := 32) (by decide) (by decide)]
    exact hint _ _ rfl rfl rfl

theorem Compared.letter_represent (h : Compared ty w) (x : BitVec w.bits) :
    (represent x).letter = ty.letter := by
  obtain ⟨rfl, hw⟩ | ⟨rfl, rfl⟩ := h
  · simp only [List.mem_cons, List.not_mem_nil, or_false] at hw
    rcases hw with rfl | rfl | rfl | rfl <;> rfl
  · rfl

end compare

/-- The printed comparison leaves `1` exactly when the predicate holds of the values that
the two locals represent. -/
theorem printCmpInstruction_faithful (env : Env) (opts : GenerationOpts) (wr : Writer)
    (pred : Instruction.Predicate) (ty : Ty) (w : IntWidth) (hty : Compared ty w)
    (left right : Local) (hleft : left.ty = ty) (hright : right.ty = ty) (a b : ℕ)
    (ha : wr.Has left a) (hb : wr.Has right b) (x y : BitVec w.bits) (c : Config)
    (hx : c.locals a = some (represent x)) (hy : c.locals b = some (represent y)) :
    ∃ is, printCmpInstruction opts (.icmp pred) (.var left) (.var right) wr = some (is, wr) ∧
      run env is none c = .fall (c.push (.int (if llvmCompare pred x y then 1#32 else 0#32))) := by
  have hlx : (represent x).letter = left.ty.letter := hleft ▸ hty.letter_represent x
  have hly : (represent y).letter = right.ty.letter := hright ▸ hty.letter_represent y
  refine ⟨_, by simp only [printCmpInstruction, emit_bind, emit_pure, Option.bind_some,
    printValueLoad_var ha, printValueLoad_var hb]; rfl, ?_⟩
  have hcall : Acts env (cmpCode (.icmp pred) left.ty) [represent y, represent x]
      (some (.ok (.int (if llvmCompare pred x y then 1#32 else 0#32)))) :=
    hleft ▸ acts_icmp hty pred x y
  rw [List.append_assoc, run_append_of_fall (run_load hx hlx _),
    run_append_of_fall (run_load (c := c.push (represent x)) hy hly _)]
  exact hcall c

/-- `icmp ult i8 0x7f, 0x80`, on the representations `127` and `-128`. -/
theorem printCmpInstruction_faithful_ult_i8 :
    ∃ is, printCmpInstruction ⟨false, false, false, false⟩ (.icmp .ult) (.var ⟨0, .int .w8⟩)
        (.var ⟨1, .int .w8⟩) ⟨[(0, 0), (1, 1)], 2, [], 0, 700, none⟩ =
          some (is, ⟨[(0, 0), (1, 1)], 2, [], 0, 700, none⟩) ∧
      run .plain is none ⟨fun n => some (.int (if n = 0 then 127 else -128)), [], Memory.initial⟩ =
        .fall ⟨fun n => some (.int (if n = 0 then 127 else -128)), [.int 1], Memory.initial⟩ :=
  printCmpInstruction_faithful .plain ⟨false, false, false, false⟩
    ⟨[(0, 0), (1, 1)], 2, [], 0, 700, none⟩ .ult (.int .w8) .w8 (.inl ⟨rfl, by decide⟩)
    ⟨0, .int .w8⟩ ⟨1, .int .w8⟩ rfl rfl 0 1 rfl rfl 0x7f#8 0x80#8
    ⟨fun n => some (.int (if n = 0 then 127 else -128)), [], Memory.initial⟩ rfl rfl

end Llxvm.Backend
