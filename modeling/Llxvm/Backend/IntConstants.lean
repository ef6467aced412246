import Llxvm.Backend.ConstantLoad

/-!
# Integer constants

The value that `printConstLoad(const APInt&)` pushes, and the constants for which it is the
one that a local of the type holds after `printValueStore`.
-/

namespace Llxvm.Backend

open Llxvm.Jvm Llxvm.Runtime SignExtend

/-- The constants that neither `bipush` nor `sipush` can push. -/
def NeedsLdc {n : ℕ} (x : BitVec n) : Prop := x.toInt < -0x8000 ∨ 0x7fff < x.toInt

instance {n : ℕ} (x : BitVec n) : Decidable (NeedsLdc x) := by
  unfold NeedsLdc
  infer_instance

/-- The value that the load of a constant pushes. -/
def constantVal (opts : GenerationOpts) {n : ℕ} (x : BitVec n) : Val :=
  if n ≤ 32 ∧ ¬ (opts.wideLdc ∧ NeedsLdc x) then .int (x.signExtend 32)
  else .long (x.signExtend 64)

/-- A number that fits is not changed by the extension of its low bits. -/
theorem signExtend_ofInt {k n : ℕ} {i : ℤ} (hlo : -2 ^ k ≤ 2 * i) (hhi : 2 * i < 2 ^ k) :
    (BitVec.ofInt k i).signExtend n = BitVec.ofInt n i := by
  have hfit : (BitVec.ofInt k i).toInt = i := by
    rw [BitVec.toInt_ofInt]
    apply Int.bmod_eq_of_le_mul_two <;> push_cast <;> omega
  change BitVec.ofInt n (BitVec.ofInt k i).toInt = _
  rw [hfit]

section load

variable {env : Env} {opts : GenerationOpts}

theorem acts_ldcToken_int (i : ℤ) :
    Acts env [ldcToken opts (.int i)] [] (some (.ok
      (if opts.wideLdc then .long (BitVec.ofInt 64 i) else .int (BitVec.ofInt 32 i)))) := by
  unfold ldcToken
  split_ifs
  · exact acts_ldc2_w (.int i)
  · exact acts_ldc (.int i)

/-- The narrow constants: one of five instructions, by the size of the value. -/
theorem acts_printConstLoadInt_narrow {n : ℕ} (hn : n ≤ 32) (x : BitVec n) :
    Acts env (printConstLoadInt opts x) [] (some (.ok
      (if opts.wideLdc ∧ NeedsLdc x then .long (x.signExtend 64)
        else .int (x.signExtend 32)))) := by
  have hint : x.signExtend 32 = BitVec.ofInt 32 x.toInt := rfl
  have hlong : x.signExtend 64 = BitVec.ofInt 64 x.toInt := rfl
  simp only [printConstLoadInt, if_pos hn, hint, hlong]
  by_cases hneg : x.toInt = -1
  · rw [if_pos hneg, if_neg (by simp [NeedsLdc, hneg]), hneg]
    exact acts_const .i (-1)
  rw [if_neg hneg]
  by_cases hsmall : 0 ≤ x.toInt ∧ x.toInt ≤ 5
  · rw [if_pos hsmall, if_neg (by unfold NeedsLdc; omega)]
    exact acts_const .i x.toInt
  rw [if_neg hsmall]
  by_cases hbyte : -0x80 ≤ x.toInt ∧ x.toInt ≤ 0x7f
  · rw [if_pos hbyte, if_neg (by unfold NeedsLdc; omega),
      ← signExtend_ofInt (k := 8) (by omega) (by omega)]
    exact acts_bipush x.toInt
  rw [if_neg hbyte]
  by_cases hshort : -0x8000 ≤ x.toInt ∧ x.toInt ≤ 0x7fff
  · rw [if_pos hshort, if_neg (by unfold NeedsLdc; omega),
      ← signExtend_ofInt (k := 16) (by omega) (by omega)]
    exact acts_sipush x.toInt
  rw [if_neg hshort]
  have hneeds : NeedsLdc x := by
    unfold NeedsLdc
    omega
  simpa only [hneeds, and_true] using acts_ldcToken_int x.toInt

theorem acts_printConstLoadInt_wide {n : ℕ} (hn : 32 < n) (x : BitVec n) :
    Acts env (printConstLoadInt opts x) [] (some (.ok (.long (x.signExtend 64)))) := by
  have hlong : x.signExtend 64 = BitVec.ofInt 64 x.toInt := rfl
  simp only [printConstLoadInt, if_neg (not_le.mpr hn)]
  split_ifs with hzero hone
  · rw [hzero, signExtend_zero]
    exact acts_const .l 0
  · have htoInt : x.toInt = 1 := by
      rw [hone, BitVec.toInt_one (by omega)]
    rw [hlong, htoInt]
    exact acts_const .l 1
  · exact acts_ldc2_w (.long x.toInt)
  · exact acts_ldc2_w (.int x.toInt)

theorem acts_printConstLoadInt {n : ℕ} (x : BitVec n) :
    Acts env (printConstLoadInt opts x) [] (some (.ok (constantVal opts x))) := by
  unfold constantVal
  by_cases hn : n ≤ 32
  · simpa only [hn, true_and, ite_not] using acts_printConstLoadInt_narrow hn x
  · simpa only [hn, false_and, if_false] using acts_printConstLoadInt_wide (not_le.mp hn) x

end load

/-! ## Constants and locals -/

/-- A value on the stack that stands for the integer `x`: the bits above the width are
arbitrary. -/
def Carries {n : ℕ} (x : BitVec n) : Val → Prop
  | .int r => n ≤ 32 ∧ r.setWidth n = x
  | .long r => 32 < n ∧ r.setWidth n = x
  | _ => False

/-- The widths of C. -/
abbrev cWidths : List IntWidth := [.w1, .w8, .w16, .w32, .w64]

theorem carries_represent {w : IntWidth} (hw : w ∈ cWidths) (x : BitVec w.bits) :
    Carries x (represent x) := by
  simp only [cWidths, List.mem_cons, List.not_mem_nil, or_false] at hw
  rcases hw with rfl | rfl | rfl | rfl | rfl
  · exact ⟨by decide, by simp⟩
  · exact ⟨by decide, setWidth_signExtend (by decide) x⟩
  · exact ⟨by decide, setWidth_signExtend (by decide) x⟩
  · exact ⟨by decide, setWidth_signExtend (by decide) x⟩
  · exact ⟨by decide, setWidth_signExtend (by decide) x⟩

/-- Every value that stands for `x` is stored as the representation of `x`. -/
theorem normalize_of_carries {w : IntWidth} (hw : w ∈ cWidths) {x : BitVec w.bits} {raw : Val}
    (h : Carries x raw) :
    raw.letter = (Ty.int w).letter ∧ normalize (.int w) raw = represent x := by
  simp only [cWidths, List.mem_cons, List.not_mem_nil, or_false] at hw
  cases raw with
  | int r =>
      obtain ⟨hle, rfl⟩ := h
      have hmem : w ∈ intWidths := by
        simp only [intWidths, List.mem_cons, List.not_mem_nil, or_false]
        rcases hw with rfl | rfl | rfl | rfl | rfl <;> simp at hle ⊢
      refine ⟨?_, normalize_int hmem r⟩
      rcases hw with rfl | rfl | rfl | rfl | rfl <;> first | rfl | simp at hle
  | long r =>
      obtain ⟨hlt, rfl⟩ := h
      rcases hw with rfl | rfl | rfl | rfl | rfl <;> first | (simp at hlt; done) | skip
      exact ⟨rfl, by simpa using normalize_long r⟩
  | float r => exact h.elim
  | double r => exact h.elim
  | ref r => exact h.elim

/-- One instruction loads the constant `x`.  It pushes an `int` or a `long` by the width, the
value that a local holds after a store of any value that stands for `x`; and it may take the
place of the load of such a local in front of any code. -/
structure LoadsAsLocal (opts : GenerationOpts) (w : IntWidth) (x : BitVec w.bits) : Prop where
  single : (printConstLoadInt opts x).length = 1
  pushes : ∀ (env : Env) (c : Config), ∃ y,
    run env (printConstLoadInt opts x) none c = .fall (c.push y) ∧
      y.letter = (if w.bits ≤ 32 then .i else .l) ∧
      ∀ raw, Carries x raw → ∀ (writer : Writer) (v : Local) (n : ℕ), v.ty = .int w →
        writer.Has v n →
        ∃ store, printValueStore opts v writer = some (store, writer) ∧
          ∀ c' : Config, run env store none (c'.push raw) =
            .fall { c' with locals := c'.locals.set n y }
  replaces : ∀ (env : Env) (c : Config) (writer : Writer) (v : Local) (n : ℕ) (raw : Val),
    v.ty = .int w → writer.Has v n → Carries x raw → c.locals n = some (normalize v.ty raw) →
    ∃ load, printValueLoad opts (.var v) writer = some (load, writer) ∧
      ∀ is : Code, run env (printConstLoadInt opts x ++ is) none c = run env (load ++ is) none c

theorem letter_represent {w : IntWidth} (hw : w ∈ cWidths) (x : BitVec w.bits) :
    (represent x).letter = (Ty.int w).letter := by
  obtain ⟨hletter, hnorm⟩ := normalize_of_carries hw (carries_represent hw x)
  rw [← hletter]

/-- The constants whose load pushes what a local holds. -/
theorem constantVal_eq_represent_iff (opts : GenerationOpts) {w : IntWidth} (hw : w ∈ cWidths)
    (x : BitVec w.bits) :
    constantVal opts x = represent x ↔
      ¬ (w.bits = 1 ∧ x ≠ 0) ∧ ¬ (opts.wideLdc ∧ w.bits = 32 ∧ NeedsLdc x) := by
  -- only constants of 32 bits can be out of the range of `sipush`
  have hshort : w.bits ≤ 16 → ¬ NeedsLdc x := by
    intro hle
    have hpow : (2 : ℤ) ^ w.bits ≤ 2 ^ 16 := pow_le_pow_right₀ (by decide) hle
    have hlo := BitVec.le_two_mul_toInt (x := x)
    have hhi := BitVec.two_mul_toInt_lt (x := x)
    unfold NeedsLdc
    omega
  simp only [cWidths, List.mem_cons, List.not_mem_nil, or_false] at hw
  rcases hw with rfl | rfl | rfl | rfl | rfl
  · have hnot := hshort (by decide)
    rcases BitVec.eq_zero_or_eq_one x with rfl | rfl <;> simp [constantVal, represent, hnot]
  · have hnot := hshort (by decide)
    simp [constantVal, represent, hnot]
  · have hnot := hshort (by decide)
    simp [constantVal, represent, hnot]
  · by_cases hbad : opts.wideLdc ∧ NeedsLdc x <;> simp [constantVal, represent, hbad]
  · simp [constantVal, represent]

theorem loadsAsLocal_of_eq {opts : GenerationOpts} {w : IntWidth} (hw : w ∈ cWidths)
    {x : BitVec w.bits} (h : constantVal opts x = represent x) : LoadsAsLocal opts w x := by
  have hpush : ∀ (env : Env) (c : Config),
      run env (printConstLoadInt opts x) none c = .fall (c.push (represent x)) := by
    intro env c
    rw [← h]
    exact acts_printConstLoadInt x c
  have hletter : ∀ {raw}, Carries x raw → raw.letter = (Ty.int w).letter := fun hraw =>
    (normalize_of_carries hw hraw).1
  refine ⟨?_, fun env c => ⟨_, hpush env c, ?_, ?_⟩, ?_⟩
  · obtain ⟨i, hi, -⟩ : IsPush (printConstLoadInt opts x) := isPush_printConstLoadInt x
    rw [hi]
    rfl
  · unfold represent
    split_ifs <;> first | rfl | omega
  · intro raw hraw writer v n hty hhas
    refine ⟨_, printValueStore_eq hhas, fun c' => ?_⟩
    rw [← (normalize_of_carries hw hraw).2, ← hty]
    exact run_store (hty ▸ hletter hraw) _ n c'
  · intro env c writer v n raw hty hhas hraw hc
    refine ⟨_, printValueLoad_var hhas, fun is => ?_⟩
    have hkind : (normalize v.ty raw).letter = v.ty.letter := by
      rw [letter_normalize, hletter hraw, hty]
    have hload : run env [.load (getTypePrefix v.ty true) (localForm opts n) n] none c = _ :=
      run_load hc hkind _
    rw [run_append_of_fall (hpush env c), run_append_of_fall hload, hty,
      (normalize_of_carries hw hraw).2]

/-- A constant is loaded like a local of its value, except for `true`, and with wide `ldc`
for the 32 bit constants beyond the range of `sipush`. -/
theorem loadsAsLocal_iff (opts : GenerationOpts) {w : IntWidth} (hw : w ∈ cWidths)
    (x : BitVec w.bits) :
    LoadsAsLocal opts w x ↔
      ¬ (w.bits = 1 ∧ x ≠ 0) ∧ ¬ (opts.wideLdc ∧ w.bits = 32 ∧ NeedsLdc x) := by
  rw [← constantVal_eq_represent_iff opts hw]
  refine ⟨fun h => ?_, loadsAsLocal_of_eq hw⟩
  obtain ⟨c⟩ : Nonempty Config := ⟨⟨fun _ => none, [], Memory.initial⟩⟩
  obtain ⟨y, hrun, -, hstore⟩ := h.pushes .plain c
  have hpushed : run .plain (printConstLoadInt opts x) none c =
      .fall (c.push (constantVal opts x)) :=
    acts_printConstLoadInt x c
  have hy : constantVal opts x = y := by
    rw [hpushed] at hrun
    simpa [Config.push] using hrun
  -- a writer with one variable, which holds the representation after a store
  have hhas : Writer.Has ⟨[(0, 0)], 1, [], 0, 0, none⟩ ⟨0, .int w⟩ 0 := rfl
  obtain ⟨store, hprint, hfall⟩ := hstore _ (carries_represent hw x) _ _ _ rfl hhas
  rw [printValueStore_eq hhas] at hprint
  cases hprint
  have hstored : run .plain _ none (c.push (represent x)) =
      .fall { c with locals := c.locals.set 0 (normalize (.int w) (represent x)) } :=
    run_store (letter_represent hw x) (localForm opts 0) 0 c
  have hlocals := (hstored.symm.trans (hfall c))
  simp only [Exit.fall.injEq, Config.mk.injEq, and_true] at hlocals
  have hslot := congrFun hlocals 0
  rw [(normalize_of_carries hw (carries_represent hw x)).2] at hslot
  rw [hy]
  simpa using hslot.symm

/-- `icmp eq i32 %x, 7` with wide constants. -/
theorem loadsAsLocal_seven : LoadsAsLocal ⟨false, false, false, true⟩ .w32 7#32 :=
  (loadsAsLocal_iff _ (by decide) _).mpr (by decide)

/-- The load of `true` pushes -1, where a local holds 1. -/
theorem not_loadsAsLocal_true :
    ¬ ∀ (opts : GenerationOpts) (w : IntWidth), w ∈ cWidths → ∀ x : BitVec w.bits,
      LoadsAsLocal opts w x := by
  intro h
  have hbit := (loadsAsLocal_iff ⟨false, false, false, false⟩ (w := .w1) (by decide) 1#1).mp
    (h ⟨false, false, false, false⟩ .w1 (by decide) 1#1)
  revert hbit
  decide

end Llxvm.Backend
