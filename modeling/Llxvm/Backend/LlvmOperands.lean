import Llxvm.Backend.FloatConstants
import Llxvm.Backend.GepAddress
import Llxvm.Backend.Llvm

/-!
# Values and operands in translated code

The local variables of a method hold the values of the function, and the loads of its operands leave
them on the stack: those of variables always, those of constants if the constant is one that the
writer prints and the assembler reads back as it is.
-/

namespace Llxvm.Backend

open Llxvm.Jvm Llxvm.Runtime DataLayout FloatFormat

/-! ## Values in local variables -/

namespace LlvmVal

/-- The contents of a local variable with the value. -/
def represent : LlvmVal → Val
  | int _ x => Backend.represent x
  | float bits => .float bits
  | double bits => .double bits
  | pointer address => .int address

/-- The store of `y` to a local variable leaves the value there. -/
def StoredFrom (x : LlvmVal) (y : Val) : Prop :=
  y.letter = x.type.letter ∧ normalize x.type y = x.represent

theorem letter_int (w : IntWidth) : (Ty.int w).letter = if w.bits ≤ 32 then .i else .l := by
  have hle := w.le
  simp only [Ty.letter, getTypePrefix, getTypeID, intBitWidth_expand]
  unfold intBitWidth
  split_ifs <;> first | rfl | omega

/-- What is in a local variable is not changed when it is stored again. -/
theorem represent_storedFrom (x : LlvmVal) : x.StoredFrom x.represent := by
  cases x with
  | int w x =>
      by_cases hbit : w.bits = 1
      · have hrep : Backend.represent x = .int (x.setWidth 32) := if_pos hbit
        have hand : x.setWidth 32 &&& 1#32 = x.setWidth 32 := by
          apply BitVec.eq_of_getLsbD_eq
          intro i hi
          by_cases hzero : i = 0
          · simp [hzero]
          · simp [hzero, BitVec.getLsbD_of_ge x i (by omega)]
        refine ⟨by simp [type, represent, letter_int, hrep, hbit, Val.letter], ?_⟩
        simp [type, represent, normalize, hrep, getBitWidth, intBitWidth, hbit, hand]
      by_cases hn : w.bits ≤ 32
      · have hrep : Backend.represent x = .int (x.signExtend 32) := by
          simp [Backend.represent, hbit, hn]
        refine ⟨by simp [type, represent, letter_int, hrep, hn, Val.letter], ?_⟩
        have hcut : ∀ k, w.bits = k →
            ((x.signExtend 32).setWidth k).signExtend 32 = x.signExtend 32 := by
          intro k hk
          rw [SignExtend.setWidth_signExtend_cut (by omega),
            SignExtend.signExtend_signExtend (by omega) (by omega)]
        simp only [type, represent, hrep, normalize, getBitWidth, intBitWidth]
        split_ifs <;> first | rfl | omega | exact congrArg Val.int (hcut _ (by omega))
      · have hrep : Backend.represent x = .long (x.signExtend 64) := by
          simp [Backend.represent, hbit, hn]
        refine ⟨by simp [type, represent, letter_int, hrep, hn, Val.letter], ?_⟩
        simp [represent, hrep, normalize]
  | float bits => exact ⟨rfl, rfl⟩
  | double bits => exact ⟨rfl, rfl⟩
  | pointer address => exact ⟨rfl, rfl⟩

end LlvmVal

/-- The local variables have the values of the function. -/
structure Values.Held (vars : List Local) (w : Writer) (values : Values) (locals : Locals) :
    Prop where
  slots : Slots w vars
  valuation : Valuation w vars locals
  value : ∀ v ∈ vars, ∀ x, values v.id = some x →
    x.type = v.ty ∧ locals (w.slot v) = some x.represent

/-- A state of the writer in which the values have the same local variables. -/
theorem Values.Held.congr {vars : List Local} {w w' : Writer} {values : Values} {locals : Locals}
    (h : values.Held vars w locals) (hhas : ∀ v ∈ vars, ∀ n, w.Has v n → w'.Has v n) :
    values.Held vars w' locals := by
  have hslot : ∀ v ∈ vars, w'.Has v (w.slot v) := fun v hv => hhas v hv _ (h.slots.has v hv)
  have heq : ∀ v ∈ vars, w'.slot v = w.slot v := fun v hv => (hslot v hv).slot_eq
  refine ⟨⟨fun v hv => heq v hv ▸ hslot v hv, fun u hu v hv hne => ?_⟩,
    ⟨fun v hv => heq v hv ▸ h.valuation.typed v hv, h.valuation.halves⟩,
    fun v hv x hx => heq v hv ▸ h.value v hv x hx⟩
  rw [heq u hu, heq v hv]
  exact h.slots.apart u hu v hv hne

/-! ## Constants -/

/-- The sizes that are added to an address have 32 bits. -/
def GepType.Fits : GepType → Prop
  | .struct fields => jvm.fieldsEnd 0 fields < 2 ^ 32
  | .sequential elem => jvm.getTypeAllocSize elem < 2 ^ 32

/-- The load of the constant leaves its value, as it is in a local variable: `true` is pushed as -1,
a zero without its sign, a NaN without its payload, and other floating point constants as what the
assembler reads. -/
def Constant.Exact (env : Env) : Constant → Prop
  | .int w x => w.bits = 1 → x = 0
  | .float f => f = 0 ∨ f = 0x7fc00000#32 ∨ f = 0x7f800000#32 ∨ f = 0xff800000#32 ∨
      FiniteNonzero FloatFormat.single f ∧ env.readFloat (.float f) = f
  | .double d => d = 0 ∨ d = 0x7ff8000000000000#64 ∨ d = 0x7ff0000000000000#64 ∨
      d = 0xfff0000000000000#64 ∨
      FiniteNonzero FloatFormat.double d ∧ env.readDouble (.double d) = d
  | .castExpr _ _ c => c.Exact env
  | .gepExpr base types _ => base.Exact env ∧ ∀ ty ∈ types, ty.Fits
  | _ => True

section constants

variable {env : Env} {opts : GenerationOpts} {blocks : List (String × ℕ)}

theorem uniform_pure {is : Code} {args : List Val} {r : Delivery} (hsilent : Silent is)
    (hacts : Acts env is args r) : Uniform env blocks (pure is) args r :=
  fun w _ _ => ⟨is, w, rfl, .refl w hsilent, hacts⟩

theorem acts_printConstLoadFloat (hldc : opts.wideLdc = false) {f : BitVec 32}
    (h : (Constant.float f).Exact env) :
    Acts env (printConstLoadFloat opts f) [] (some (.ok (.float f))) := by
  rcases h with rfl | rfl | rfl | rfl | ⟨⟨hzero, hfinite⟩, hread⟩
  · exact acts_const .f 0
  · exact acts_getstatic (.nan .f)
  · exact acts_getstatic (.infinity .f false)
  · exact acts_getstatic (.infinity .f true)
  have hne : f &&& 0x7fffffff#32 ≠ 0#32 := pattern_ne_zero_single ⟨hzero, hfinite⟩
  have hlt : (f &&& 0x7fffffff#32).toNat < 0x7f800000 := pattern_single f ▸ hfinite
  unfold printConstLoadFloat
  rw [if_neg hne]
  split_ifs with hone htwo hnan hinf hneg
  · exact hone ▸ acts_const .f 1
  · exact htwo ▸ acts_const .f 2
  · omega
  · subst hinf
    exact absurd hlt (by decide)
  · subst hneg
    exact absurd hlt (by decide)
  · have hload : Acts env [ldcToken opts (.float f)] []
        (some (.ok (.float (env.readFloat (.float f))))) := by
      rw [ldcToken, hldc]
      exact acts_ldc (.float f)
    rwa [hread] at hload

theorem acts_printConstLoadDouble {d : BitVec 64} (h : (Constant.double d).Exact env) :
    Acts env (printConstLoadDouble d) [] (some (.ok (.double d))) := by
  rcases h with rfl | rfl | rfl | rfl | ⟨⟨hzero, hfinite⟩, hread⟩
  · exact acts_const .d 0
  · exact acts_getstatic (.nan .d)
  · exact acts_getstatic (.infinity .d false)
  · exact acts_getstatic (.infinity .d true)
  have hne : d &&& 0x7fffffffffffffff#64 ≠ 0#64 := pattern_ne_zero_double ⟨hzero, hfinite⟩
  have hlt : (d &&& 0x7fffffffffffffff#64).toNat < 0x7ff0000000000000 := pattern_double d ▸ hfinite
  unfold printConstLoadDouble
  rw [if_neg hne]
  split_ifs with hone hnan hinf hneg
  · exact hone ▸ acts_const .d 1
  · omega
  · subst hinf
    exact absurd hlt (by decide)
  · subst hneg
    exact absurd hlt (by decide)
  · have hload : Acts env [.ldc2_w (.double d)] []
        (some (.ok (.double (env.readDouble (.double d))))) := acts_ldc2_w (.double d)
    rwa [hread] at hload

theorem acts_printPtrLoad (hldc : opts.wideLdc = false) (n : ℕ) :
    Acts env (printPtrLoad opts n) [] (some (.ok (.int (BitVec.ofNat 32 n)))) :=
  run_printPtrLoad env hldc n

theorem acts_printFunctionLoad (hldc : opts.wideLdc = false) (g : FunctionRef) :
    Acts env (printFunctionLoad opts g) []
      (some (.ok (.int (env.functionPointer (functionClass g) (methodName g))))) := by
  intro c
  unfold printFunctionLoad functionClass ldcToken
  rw [hldc]
  cases g.external <;> rfl

/-- The offset of a field is added to the address. -/
theorem printGepIndex_struct (hldc : opts.wideLdc = false) {fields : List Ty} {width : IntWidth}
    {i : BitVec width.bits} {offset : BitVec 32} (hfit : jvm.fieldsEnd 0 fields < 2 ^ 32)
    (hoffset : llvmIndex (.struct fields) (.int width i) = some offset) (indexTy : Ty)
    (loadIndex : Emit Code) (w : Writer) :
    ∃ is, printGepIndex opts jvm (.struct fields) (some (.int width i)) indexTy loadIndex w =
        some (is, w) ∧ Silent is ∧
      ∀ a, Acts env is [.int a] (some (.ok (.int (a + offset)))) := by
  simp only [llvmIndex, Option.map_eq_some_iff] at hoffset
  obtain ⟨n, hn, rfl⟩ := hoffset
  have hlt : i.toNat < fields.length := by
    have hlen := (List.getElem?_eq_some_iff.mp hn).1
    rwa [length_fieldOffsets] at hlen
  have heq : jvm.gepFieldOffset fields i.toNat = n :=
    Option.some.inj ((gepFieldOffset_eq jvm hfit hlt).trans hn)
  refine ⟨printPtrLoad opts (jvm.gepFieldOffset fields i.toNat) ++ [.arith .i .add], rfl, ?_,
    fun a => ?_⟩
  · exact (isPush_printConstLoadInt _).silent.append (by simp [Silent])
  · have hadd : Acts env [.arith .i .add] ([.int (BitVec.ofNat 32 n)] ++ [.int a])
        (some (.ok (.int (a + BitVec.ofNat 32 n)))) := acts_arith .i .add _ _
    rw [heq]
    exact (acts_printPtrLoad hldc n).append_ok hadd

/-- A constant index is added in one of the short forms. -/
theorem printGepIndex_constant (hldc : opts.wideLdc = false) {elem : Ty} {width : IntWidth}
    {i : BitVec width.bits} {offset : BitVec 32} (hfit : jvm.getTypeAllocSize elem < 2 ^ 32)
    (hoffset : llvmIndex (.sequential elem) (.int width i) = some offset) (indexTy : Ty)
    (loadIndex : Emit Code) (w : Writer) :
    ∃ is, printGepIndex opts jvm (.sequential elem) (some (.int width i)) indexTy loadIndex w =
        some (is, w) ∧ Silent is ∧
      ∀ a, Acts env is [.int a] (some (.ok (.int (a + offset)))) := by
  obtain rfl := Option.some.inj hoffset
  obtain ⟨is, hprint, hrun⟩ := run_constantIndex env hldc elem i hfit indexTy loadIndex w
  refine ⟨is, hprint, ?_, fun a c => hrun c a⟩
  have hpush : ∀ n, Silent (printPtrLoad opts n) := fun n => (isPush_printConstLoadInt _).silent
  simp only [printGepIndex] at hprint
  split_ifs at hprint <;> cases hprint
  · simp [Silent]
  · exact (hpush _).append (by simp [Silent])
  · exact (hpush _).append (by simp [Silent])

theorem exists_index {c : Constant} {x : LlvmVal} (h : c.index = some x) :
    ∃ w i, c = .int w i ∧ x = .int w i := by
  cases c <;> cases h
  exact ⟨_, _, rfl, rfl⟩

/-- The indices of a constant address. -/
theorem uniform_printConstantGep (hldc : opts.wideLdc = false) {types : List GepType}
    {indices : List Constant} {xs : List LlvmVal} {a b : BitVec 32}
    (hfits : ∀ ty ∈ types, ty.Fits) (hxs : indices.mapM Constant.index = some xs)
    (hgep : llvmGep a (types.zip xs) = some b) :
    Uniform env blocks (printConstantGep opts types indices) [.int a] (some (.ok (.int b))) := by
  induction types generalizing indices xs a with
  | nil =>
      obtain rfl := Option.some.inj hgep
      simp only [printConstantGep]
      exact uniform_pure (by simp [Silent]) (.nil _)
  | cons ty types ih =>
      cases indices with
      | nil =>
          obtain rfl := Option.some.inj hxs
          obtain rfl := Option.some.inj hgep
          simp only [printConstantGep]
          exact uniform_pure (by simp [Silent]) (.nil _)
      | cons c indices =>
          simp only [List.mapM_cons, Option.pure_def, Option.bind_eq_bind,
            Option.bind_eq_some_iff] at hxs
          obtain ⟨x, hx, xs', hxs', heq⟩ := hxs
          obtain rfl := Option.some.inj heq
          obtain ⟨width, i, rfl, rfl⟩ := exists_index hx
          simp only [List.zip_cons_cons, llvmGep, Option.bind_eq_bind,
            Option.bind_eq_some_iff] at hgep
          obtain ⟨offset, hoffset, hrest⟩ := hgep
          have hfit := hfits ty List.mem_cons_self
          have htail := ih (fun t ht => hfits t (List.mem_cons_of_mem _ ht)) hxs' hrest
          have hindex : ∀ w : Writer, ∃ is, printGepIndex opts jvm ty (some (.int width i))
              (Constant.int width i).type (printConstantLoad opts (.int width i)) w = some (is, w) ∧
              Silent is ∧ ∀ a, Acts env is [.int a] (some (.ok (.int (a + offset)))) := by
            cases ty with
            | struct fields => exact printGepIndex_struct hldc hfit hoffset _ _
            | sequential elem => exact printGepIndex_constant hldc hfit hoffset _ _
          intro w hw hb
          obtain ⟨is, hprint, hsilent, hacts⟩ := hindex w
          obtain ⟨js, w', hprint', hemit, hacts'⟩ := htail w hw hb
          refine ⟨is ++ js, w', ?_, (Emitted.refl w hsilent).trans hemit,
            (hacts a).append_ok hacts'⟩
          simp only [printConstantGep, emit_bind, emit_pure, hprint, hprint', Option.bind_some]

theorem acts_printConstLoadInt_exact (hldc : opts.wideLdc = false) {w : IntWidth}
    {x : BitVec w.bits} (h : (Constant.int w x).Exact env) :
    Acts env (printConstLoadInt opts x) [] (some (.ok (LlvmVal.int w x).represent)) := by
  have hval : constantVal opts x = represent x := by
    unfold constantVal represent
    by_cases hbit : w.bits = 1
    · have hzero : x = 0#w.bits := h hbit
      simp [hldc, hbit, hzero, SignExtend.signExtend_zero]
    · by_cases hn : w.bits ≤ 32 <;> simp [hldc, hbit, hn]
  rw [LlvmVal.represent, ← hval]
  exact acts_printConstLoadInt x

/-- The load of a constant leaves its value. -/
theorem uniform_of_exact (hldc : opts.wideLdc = false) : ∀ (c : Constant) {x : LlvmVal},
    c.Exact env → llvmConstant env c = some x →
    Uniform env blocks (printConstantLoad opts c) [] (some (.ok x.represent)) ∧ x.type = c.type
  | .null, _, _, hx => by
      cases hx
      rw [printConstantLoad]
      exact ⟨uniform_pure (isPush_printConstLoadInt _).silent (acts_printPtrLoad hldc 0), rfl⟩
  | .int w i, _, hexact, hx => by
      cases hx
      rw [printConstantLoad]
      exact ⟨uniform_pure (isPush_printConstLoadInt i).silent
        (acts_printConstLoadInt_exact hldc hexact), rfl⟩
  | .float f, _, hexact, hx => by
      cases hx
      rw [printConstantLoad]
      exact ⟨uniform_pure (isPush_printConstLoadFloat f).silent
        (acts_printConstLoadFloat hldc hexact), rfl⟩
  | .double d, _, hexact, hx => by
      cases hx
      rw [printConstantLoad]
      exact ⟨uniform_pure (isPush_printConstLoadDouble d).silent
        (acts_printConstLoadDouble hexact), rfl⟩
  | .function g, _, _, hx => by
      cases hx
      rw [printConstantLoad]
      exact ⟨uniform_pure (printFunctionLoad_silent g) (acts_printFunctionLoad hldc g), rfl⟩
  | .globalVariable g, _, _, hx => by
      cases hx
      rw [printConstantLoad]
      refine ⟨uniform_pure (by simp [Silent, printGlobalLoad]) ?_, rfl⟩
      exact acts_getstatic (.global g.name (if g.external then none else some .self))
  | .castExpr op ty c, x, hexact, hx => by
      simp only [llvmConstant, Option.bind_eq_bind, Option.bind_eq_some_iff] at hx
      obtain ⟨y, hy, hx⟩ := hx
      split at hx
      next a =>
        cases hx
        obtain ⟨hload, hty⟩ := uniform_of_exact hldc c hexact hy
        rw [printConstantLoad, ← hty]
        refine ⟨fun w hw hb => ?_, rfl⟩
        obtain ⟨is, w', hprint, hemit, hacts⟩ := hload w hw hb
        refine ⟨is, w', ?_, hemit, hacts⟩
        simp only [emit_bind, emit_pure, hprint, Option.bind_some]
        exact congrArg some (Prod.ext (List.append_nil is) rfl)
      next => cases hx
  | .gepExpr base types indices, x, hexact, hx => by
      simp only [llvmConstant, Option.bind_eq_bind, Option.bind_eq_some_iff] at hx
      obtain ⟨y, hy, hx⟩ := hx
      split at hx
      next a =>
        simp only [Option.bind_eq_some_iff] at hx
        obtain ⟨xs, hxs, b, hb, hx⟩ := hx
        cases hx
        obtain ⟨hload, hty⟩ := uniform_of_exact hldc base hexact.1 hy
        have hgep : Uniform env blocks (printConstantGep opts types indices) [.int a]
            (some (.ok (.int b))) := uniform_printConstantGep hldc hexact.2 hxs hb
        rw [printConstantLoad, ← hty]
        refine ⟨fun w hw hblocks => ?_, rfl⟩
        obtain ⟨is, w₁, hprint, hemit, hacts⟩ := hload w hw hblocks
        obtain ⟨js, w₂, hprint', hemit', hacts'⟩ :=
          hgep w₁ (hemit.fresh hw) (hemit.basicblockMap.trans hblocks)
        refine ⟨is ++ js, w₂, ?_, hemit.trans hemit', hacts.append_ok hacts'⟩
        simp only [emit_bind, emit_pure, hprint, hprint', Option.bind_some]
        exact congrArg (fun is => some (is ++ js, w₂)) (List.append_nil is)
      next => cases hx
  | .undef _, _, _, hx => by cases hx
  | .aggregateZero _, _, _, hx => by cases hx
  | .blockAddress _, _, _, hx => by cases hx
  | .string _, _, _, hx => by cases hx
  | .dataArray _ _, _, _, hx => by cases hx
  | .aggregate _ _, _, _, hx => by cases hx
  | .binaryExpr _ _ _, _, _, hx => by cases hx
  | .cmpExpr _ _ _, _, _, hx => by cases hx
  | .selectExpr _ _ _, _, _, hx => by cases hx

end constants

/-! ## Operands -/

/-- The operand is a variable, or a constant that is loaded as its value. -/
def Value.Exact (env : Env) : Value → Prop
  | .const c => c.Exact env
  | .var _ => True

/-- What is loaded becomes the value when it is stored to a local variable: this holds of `true`,
too. -/
def Value.Storable (env : Env) : Value → Prop
  | .const (.int _ _) => True
  | v => v.Exact env

section operands

variable {env : Env} {opts : GenerationOpts} {vars : List Local} {w : Writer} {values : Values}
  {locals : Locals} {v : Value} {x : LlvmVal}

theorem operand_of_uniform {c : Constant} {y : Val}
    (h : Uniform env w.basicblockMap (printConstantLoad opts c) [] (some (.ok y))) :
    Operand env opts w locals (.const c) y := by
  intro w₁ hw₁ _ hblocks
  obtain ⟨is, w₂, hprint, hemit, hacts⟩ := h w₁ hw₁ hblocks
  exact ⟨is, w₂, hprint, hemit, fun c _ => hacts c⟩

/-- An operand is loaded as its value. -/
theorem operand_of_exact (hldc : opts.wideLdc = false) (held : values.Held vars w locals)
    (hin : v.In vars) (hexact : v.Exact env) (hx : llvmOperand env values v = some x) :
    Operand env opts w locals v x.represent ∧ x.type = v.type := by
  cases v with
  | const c =>
      obtain ⟨hload, hty⟩ := uniform_of_exact hldc c hexact hx
      exact ⟨operand_of_uniform hload, hty⟩
  | var v =>
      obtain ⟨hty, hslot⟩ := held.value v hin x hx
      refine ⟨operand_var (held.slots.has v hin) hslot ?_, hty⟩
      rw [x.represent_storedFrom.1, hty]

theorem operand_of_storable (hldc : opts.wideLdc = false) (held : values.Held vars w locals)
    (hin : v.In vars) (hstorable : v.Storable env) (hx : llvmOperand env values v = some x) :
    ∃ y, Operand env opts w locals v y ∧ x.StoredFrom y ∧ x.type = v.type := by
  have hother : v.Exact env →
      ∃ y, Operand env opts w locals v y ∧ x.StoredFrom y ∧ x.type = v.type := by
    intro hexact
    obtain ⟨hoperand, hty⟩ := operand_of_exact hldc held hin hexact hx
    exact ⟨_, hoperand, x.represent_storedFrom, hty⟩
  unfold Value.Storable at hstorable
  split at hstorable
  next width i =>
    by_cases hbit : width.bits = 1 ∧ i ≠ 0
    · cases hx
      refine ⟨constantVal opts i, operand_of_uniform ?_, ?_, rfl⟩
      · rw [printConstantLoad]
        exact uniform_pure (isPush_printConstLoadInt i).silent (acts_printConstLoadInt i)
      · obtain ⟨bits, hpos, hle⟩ := width
        obtain ⟨rfl, hi⟩ := hbit
        obtain rfl : i = 1#1 := by
          have hcases : ∀ i : BitVec 1, i = 0 ∨ i = 1 := by decide
          exact (hcases i).resolve_left hi
        simp only [constantVal, hldc]
        exact ⟨rfl, rfl⟩
    · exact hother fun h => not_not.mp fun hne => hbit ⟨h, hne⟩
  next => exact hother hstorable

end operands

end Llxvm.Backend
