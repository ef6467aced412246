import Llxvm.Backend.Body
import Llxvm.Backend.IntConstants
import Llxvm.Backend.Loads

/-!
# Addresses of array elements

What the code of `printGepInstruction` computes for sequential indices.  Constant indices
take one of three short forms, variables the multiplication at run time.
-/

namespace Llxvm.Backend

open Llxvm.Jvm DataLayout SignExtend

/-- A sequential index: what it steps over, its value, and the local that holds the value
if it is not a constant. -/
structure SequentialIndex where
  elem : Ty
  width : IntWidth
  width_mem : width ∈ [IntWidth.w8, .w16, .w32, .w64]
  value : BitVec width.bits
  var : Option Local

namespace SequentialIndex

variable (i : SequentialIndex)

def operand : Value :=
  match i.var with
  | none => .const (.int i.width i.value)
  | some v => .var v

/-- The index as `printGepInstruction` receives it. -/
def index : GepType × Value := (.sequential i.elem, i.operand)

def size : ℕ := jvm.getTypeAllocSize i.elem

/-- The bytes that the index steps over. -/
def offset : ℤ := i.value.toInt * i.size

/-- A variable index has a register, which holds the value in its representation. -/
def Held (w : Writer) (locals : Locals) : Prop :=
  ∀ v ∈ i.var, v.ty = .int i.width ∧ ∃ n, w.Has v n ∧ locals n = some (represent i.value)

end SequentialIndex

section gep

variable (env : Env) {opts : GenerationOpts}

theorem run_printPtrLoad (hldc : opts.wideLdc = false) (n : ℕ) (c : Config) :
    run env (printPtrLoad opts n) none c = .fall (c.push (.int (BitVec.ofNat 32 n))) := by
  have hval : constantVal opts (BitVec.ofNat 32 n) = .int (BitVec.ofNat 32 n) := by
    simp [constantVal, hldc]
  have hacts : Acts env (printPtrLoad opts n) []
      (some (.ok (constantVal opts (BitVec.ofNat 32 n)))) :=
    acts_printConstLoadInt _
  rw [hval] at hacts
  exact hacts c

/-- A short form: the product is loaded and added to the address or subtracted from it. -/
theorem run_shortForm (hldc : opts.wideLdc = false) (n : ℕ) {op : ArithOp}
    {f : BitVec 32 → BitVec 32}
    {a : BitVec 32}
    (hop : arith env .i op (.int a) (.int (BitVec.ofNat 32 n)) = some (.ok (.int (f a))))
    (c : Config) :
    run env (printPtrLoad opts n ++ [.arith .i op]) none (c.push (.int a)) =
      .fall (c.push (.int (f a))) := by
  rw [run_append_of_fall (run_printPtrLoad env hldc n _)]
  have hacts : Acts env [.arith .i op] [.int (BitVec.ofNat 32 n), .int a] _ := acts_arith .i op _ _
  rw [hop] at hacts
  exact hacts c

/-- The product of a constant index is formed in 64 bits and cut to 32. -/
theorem ofNat_mod_two_pow (n : ℕ) : BitVec.ofNat 32 (n % 2 ^ 64) = BitVec.ofNat 32 n := by
  apply BitVec.eq_of_toNat_eq
  simp only [BitVec.toNat_ofNat]
  exact Nat.mod_mod_of_dvd n (Nat.pow_dvd_pow 2 (by decide))

theorem acts_indexCast {w : IntWidth} (hw : w ∈ [IntWidth.w8, .w16, .w32, .w64])
    (x : BitVec w.bits) :
    Acts env (castCode .inttoptr .pointer (.int w)) [represent x]
      (some (.ok (.int (BitVec.ofInt 32 x.toInt)))) := by
  obtain ⟨v, hcode, hletter, hnorm⟩ := inttoptr_delivers env
    (show (IntCast.inttoptr w).Allowed from hw) x
  have hacts : Acts env (castCode .inttoptr .pointer (.int w)) [represent x] (some (.ok v)) :=
    hcode ▸ acts_unaryCode (castCode_isUnary .inttoptr .pointer (.int w)) _
  cases v with
  | int r =>
      have hr : r = x.signExtend 32 := by simpa [normalize, getBitWidth, represent] using hnorm
      subst hr
      exact hacts
  | long r => cases hletter
  | float r => cases hletter
  | double r => cases hletter
  | ref r => cases hletter

theorem run_constantIndex (hldc : opts.wideLdc = false) (elem : Ty) {width : IntWidth}
    (x : BitVec width.bits) (hsize : jvm.getTypeAllocSize elem < 2 ^ 32) (indexTy : Ty)
    (loadIndex : Emit Code) (w : Writer) :
    ∃ is, printGepIndex opts jvm (.sequential elem) (some (.int width x)) indexTy loadIndex w =
        some (is, w) ∧
      ∀ (c : Config) (a : BitVec 32), run env is none (c.push (.int a)) =
        .fall (c.push (.int (a + BitVec.ofInt 32 (x.toInt * jvm.getTypeAllocSize elem)))) := by
  have hsmall : jvm.getTypeAllocSize elem % 2 ^ 32 = jvm.getTypeAllocSize elem :=
    Nat.mod_eq_of_lt hsize
  simp only [printGepIndex, hsmall]
  generalize jvm.getTypeAllocSize elem = size
  by_cases hzero : x.toInt = 0
  · rw [if_pos hzero]
    refine ⟨_, rfl, fun c a => ?_⟩
    simp [run, hzero]
  rw [if_neg hzero]
  by_cases hneg : x.toInt < 0
  · rw [if_pos hneg]
    refine ⟨_, rfl, fun c a => ?_⟩
    have habs : x.toInt * size = -((x.toInt.natAbs * size : ℕ) : ℤ) := by
      push_cast
      rw [abs_of_neg hneg]
      ring
    have hop : arith env .i .sub (.int a)
        (.int (BitVec.ofNat 32 (x.toInt.natAbs * size % 2 ^ 64))) =
        some (.ok (.int (a - BitVec.ofNat 32 (x.toInt.natAbs * size % 2 ^ 64)))) := rfl
    rw [run_shortForm (f := fun a => a - _) env hldc _ hop, ofNat_mod_two_pow, habs,
      BitVec.ofInt_neg,
      BitVec.ofInt_natCast, BitVec.sub_eq_add_neg]
  · rw [if_neg hneg]
    refine ⟨_, rfl, fun c a => ?_⟩
    have hnat : x.toInt * size = ((x.toNat * size : ℕ) : ℤ) := by
      have htoNat : x.toInt = x.toNat := by
        have := BitVec.toInt_eq_toNat_cond x
        have := x.isLt
        split_ifs at * <;> omega
      rw [htoNat]
      push_cast
      ring
    have hop : arith env .i .add (.int a) (.int (BitVec.ofNat 32 (x.toNat * size % 2 ^ 64))) =
        some (.ok (.int (a + BitVec.ofNat 32 (x.toNat * size % 2 ^ 64)))) := rfl
    rw [run_shortForm (f := fun a => a + _) env hldc _ hop, ofNat_mod_two_pow, hnat,
      BitVec.ofInt_natCast]

theorem run_variableIndex (hldc : opts.wideLdc = false) (elem : Ty) {width : IntWidth}
    (hmem : width ∈ [IntWidth.w8, .w16, .w32, .w64]) (x : BitVec width.bits)
    (hsize : jvm.getTypeAllocSize elem < 2 ^ 32) {v : Local} (hty : v.ty = .int width) {w : Writer}
    {n : ℕ} (hhas : w.Has v n) :
    ∃ is, printGepIndex opts jvm (.sequential elem) none v.ty (printValueLoad opts (.var v)) w =
        some (is, w) ∧
      ∀ (c : Config) (a : BitVec 32), c.locals n = some (represent x) →
        run env is none (c.push (.int a)) =
          .fall (c.push (.int (a + BitVec.ofInt 32 (x.toInt * jvm.getTypeAllocSize elem)))) := by
  have hsmall : jvm.getTypeAllocSize elem % 2 ^ 32 = jvm.getTypeAllocSize elem :=
    Nat.mod_eq_of_lt hsize
  simp only [printGepIndex, hsmall, emit_bind, emit_pure, printValueLoad_var hhas, Option.bind_some]
  generalize jvm.getTypeAllocSize elem = size
  refine ⟨_, rfl, fun c a hx => ?_⟩
  have hletter : (represent x).letter = v.ty.letter := by
    rw [hty]
    exact letter_represent
      (by simp only [List.mem_cons, List.not_mem_nil, or_false] at hmem ⊢; tauto) x
  have hload : run env [.load (getTypePrefix v.ty true) (localForm opts n) n] none
      ((c.push (.int a)).push (.int (BitVec.ofNat 32 size))) =
        .fall (((c.push (.int a)).push (.int (BitVec.ofNat 32 size))).push (represent x)) :=
    run_load (by exact hx) hletter _
  have hcast := acts_indexCast env hmem x ((c.push (.int a)).push (.int (BitVec.ofNat 32 size)))
  have hprod :
      BitVec.ofNat 32 size * BitVec.ofInt 32 x.toInt = BitVec.ofInt 32 (x.toInt * size) := by
    rw [BitVec.ofInt_mul, BitVec.ofInt_natCast, BitVec.mul_comm]
  rw [List.append_assoc, List.append_assoc, run_append_of_fall (run_printPtrLoad env hldc _ _),
    run_append_of_fall hload, hty]
  refine (run_append_of_fall hcast).trans ?_
  rw [← hprod]
  rfl

/-- One index adds its offset, in every form. -/
theorem run_printGepIndex (hldc : opts.wideLdc = false) (i : SequentialIndex)
    (hsize : i.size < 2 ^ 32)
    {w : Writer} {locals : Locals} (hi : i.Held w locals) :
    ∃ is, printGepIndex opts jvm (.sequential i.elem) i.operand.constant i.operand.type
        (printValueLoad opts i.operand) w = some (is, w) ∧
      ∀ (c : Config) (a : BitVec 32), c.locals = locals →
        run env is none (c.push (.int a)) =
          .fall (c.push (.int (a + BitVec.ofInt 32 i.offset))) := by
  obtain ⟨elem, width, hmem, value, var⟩ := i
  cases var with
  | none =>
      obtain ⟨is, hprint, hrun⟩ := run_constantIndex env hldc elem value hsize (.int width)
        (printConstantLoad opts (.int width value)) w
      exact ⟨is, hprint, fun c a _ => hrun c a⟩
  | some v =>
      obtain ⟨hty, n, hhas, hlocal⟩ := hi v rfl
      obtain ⟨is, hprint, hrun⟩ := run_variableIndex env hldc elem hmem value hsize hty hhas
      exact ⟨is, hprint, fun c a hc => hrun c a (hc ▸ hlocal)⟩

theorem run_printGepIndices (hldc : opts.wideLdc = false) {w : Writer} {locals : Locals}
    (indices : List SequentialIndex) (hsize : ∀ i ∈ indices, i.size < 2 ^ 32)
    (hheld : ∀ i ∈ indices, i.Held w locals) :
    ∃ is, printGepIndices opts (indices.map SequentialIndex.index) w = some (is, w) ∧
      ∀ (c : Config) (a : BitVec 32), c.locals = locals → run env is none (c.push (.int a)) =
        .fall (c.push (.int (a + BitVec.ofInt 32 (indices.map SequentialIndex.offset).sum))) := by
  induction indices with
  | nil => exact ⟨[], rfl, fun c a _ => by simp [run]⟩
  | cons i indices ih =>
      obtain ⟨first, hfirst, hrun⟩ := run_printGepIndex env hldc i (hsize i (by simp))
        (hheld i (by simp))
      obtain ⟨rest, hrest, hrunrest⟩ := ih (fun j hj => hsize j (by simp [hj]))
        fun j hj => hheld j (by simp [hj])
      refine ⟨first ++ rest, ?_, fun c a hc => ?_⟩
      · simp only [List.map_cons, SequentialIndex.index, printGepIndices, emit_bind, emit_pure,
          hfirst,
          hrest, Option.bind_some]
      · rw [run_append_of_fall (hrun c a hc), hrunrest c _ hc, List.map_cons, List.sum_cons,
          BitVec.ofInt_add, BitVec.add_assoc]

/-- The code of `printGepInstruction` leaves the base address plus the sum of the sign
extended indices times the sizes, whether an index is a constant or a variable. -/
theorem run_printGepInstruction (hldc : opts.wideLdc = false) {w : Writer} (hw : w.Fresh)
    {locals : Locals} {v : Value} (hty : v.type = .pointer) {base : BitVec 32}
    (hbase : Operand env opts w locals v (.int base)) (indices : List SequentialIndex)
    (hsize : ∀ i ∈ indices, i.size < 2 ^ 32) (hheld : ∀ i ∈ indices, i.Held w locals) :
    ∃ is w', printGepInstruction opts v (indices.map SequentialIndex.index) w = some (is, w') ∧
      ∀ c : Config, c.locals = locals → run env is none c = .fall (c.push
        (.int (base + BitVec.ofInt 32 (indices.map SequentialIndex.offset).sum))) := by
  obtain ⟨load, w', hload, hemit, hrun⟩ := hbase w hw rfl rfl
  have hheld' : ∀ i ∈ indices, i.Held w' locals := by
    intro i hi u hu
    obtain ⟨hu, n, hhas, hn⟩ := hheld i hi u hu
    refine ⟨hu, n, ?_, hn⟩
    rw [Writer.Has, hemit.localVars]
    exact hhas
  obtain ⟨is, hprint, hrunis⟩ := run_printGepIndices env hldc indices hsize hheld'
  refine ⟨load ++ is, w', ?_, fun c hc => ?_⟩
  · have hcode : castCode .inttoptr .pointer v.type = [] := by
      rw [hty]
      rfl
    simp only [printGepInstruction, printCastInstruction, emit_bind, emit_pure, hload, hprint,
      hcode,
      Option.bind_some, List.append_nil]
  · rw [run_append_of_fall (hrun c hc)]
    exact hrunis c base hc

/-- Two steps of -128 over an `i32`, by a constant and by a local. -/
theorem run_printGepInstruction_min : ∃ is w',
    printGepInstruction ⟨false, false, false, false⟩ (.var ⟨0, .pointer⟩)
        [(.sequential (.int .w32), .const (.int .w8 (-128))),
          (.sequential (.int .w32), .var ⟨1, .int .w8⟩)]
        ⟨[(0, 0), (1, 1)], 2, [], 0, 0, none⟩ = some (is, w') ∧
      ∀ c : Config, c.locals = (fun n => some (.int (if n = 0 then 4096 else -128))) →
        run .plain is none c = .fall (c.push (.int 3072)) := by
  have hfresh : Writer.Fresh ⟨[(0, 0), (1, 1)], 2, [], 0, 0, none⟩ := by
    intro l hl
    cases hl
  have hhas : Writer.Has ⟨[(0, 0), (1, 1)], 2, [], 0, 0, none⟩ ⟨0, .pointer⟩ 0 := rfl
  have hbase : Operand .plain ⟨false, false, false, false⟩ ⟨[(0, 0), (1, 1)], 2, [], 0, 0, none⟩
      (fun n => some (.int (if n = 0 then 4096 else -128))) (.var ⟨0, .pointer⟩) (.int 4096) :=
    operand_var hhas rfl rfl
  refine run_printGepInstruction .plain rfl hfresh rfl hbase
    [⟨.int .w32, .w8, by simp, -128, none⟩, ⟨.int .w32, .w8, by simp, -128, some ⟨1, .int .w8⟩⟩]
    (by decide) fun i hi v hv => ?_
  simp only [List.mem_cons, List.not_mem_nil, or_false] at hi
  rcases hi with rfl | rfl
  · cases hv
  · cases hv
    exact ⟨rfl, 1, rfl, rfl⟩

end gep

end Llxvm.Backend
