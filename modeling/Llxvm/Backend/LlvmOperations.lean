import Llxvm.Backend.LlvmOperands

/-!
# Operations in translated code

The code of an operation leaves what a store makes the value that LLVM gives it, and the memory that
the operation leaves.  The operations are those on the types of C; the exceptions are the ones that
the writer translates with the wrong extension or without one.
-/

namespace Llxvm.Backend

open Llxvm.Jvm Llxvm.Runtime DataLayout SignExtend

/-- The integers of C, without the bits. -/
abbrev longWidths : List IntWidth := [.w8, .w16, .w32, .w64]

/-! ## Computations on loaded operands -/

section computations

variable {env : Env}

/-- A logical right shift of a negative `i8` or `i16` is the exception; bits are added, multiplied
and combined. -/
def ArithmeticExact (op : BinaryOp) : LlvmVal → LlvmVal → Prop
  | .int w x, .int _ y =>
      w ∈ longWidths ∧ ¬ (op = .lshr ∧ w.bits < 32 ∧ x.msb = true ∧ y.toNat ≠ 0) ∨
        w = .w1 ∧ op ∈ [BinaryOp.add, .sub, .mul, .and, .or, .xor]
  | _, _ => True

theorem narrow_iff {w : IntWidth} : w.Narrow ↔ w ∈ longWidths ∧ w ≠ .w64 := by
  constructor
  · rintro (rfl | rfl | rfl) <;> simp
  · rintro ⟨hw, hne⟩
    simp only [longWidths, List.mem_cons, List.not_mem_nil, or_false] at hw
    rcases hw with rfl | rfl | rfl | rfl
    · exact .inl rfl
    · exact .inr (.inl rfl)
    · exact .inr (.inr rfl)
    · exact (hne rfl).elim

theorem storedFrom_int {w : IntWidth} (hw : w ∈ intWidths) {x : BitVec w.bits} {v : BitVec 32}
    (h : v.setWidth w.bits = x) : (LlvmVal.int w x).StoredFrom (.int v) :=
  storesAs_int hw h

theorem acts_arithmetic_int {op : BinaryOp} {w : IntWidth} {x y z : BitVec w.bits}
    (hw : w ∈ longWidths) (hdef : llvmBinary op x y = some z)
    (hexact : ¬ (op = .lshr ∧ w.bits < 32 ∧ x.msb = true ∧ y.toNat ≠ 0)) :
    ∃ v, Acts env (arithmeticCode op (.int w) (.int w)) [represent y, represent x]
      (some (.ok v)) ∧ (LlvmVal.int w z).StoredFrom v := by
  have hzero : y ≠ 0#w.bits ↔ y.toNat ≠ 0 := by
    rw [Ne, ← BitVec.toNat_inj, BitVec.toNat_ofNat, Nat.zero_mod]
  by_cases hlong : w = .w64
  · subst hlong
    have hrep : ∀ x : BitVec 64, represent x = .long x := fun x => by simp [represent]
    rw [hrep, hrep]
    exact ⟨.long z, long_delivers hdef, storesAs_long rfl⟩
  · have hnarrow := narrow_iff.mpr ⟨hw, hlong⟩
    obtain ⟨v, hacts, hv⟩ := @narrow_delivers env _ _ hnarrow _ _ _ hdef
    have hmem : w ∈ intWidths := by
      rcases hnarrow with rfl | rfl | rfl <;> simp
    rw [hnarrow.represent, hnarrow.represent]
    exact ⟨.int v, hacts, storedFrom_int hmem (hv.mpr (by rwa [hzero]))⟩

theorem acts_arithmetic_bit {op : BinaryOp} {x y z : BitVec 1}
    (hop : op ∈ [BinaryOp.add, .sub, .mul, .and, .or, .xor]) (hdef : llvmBinary op x y = some z) :
    ∃ v, Acts env (arithmeticCode op (.int .w1) (.int .w1)) [represent y, represent x]
      (some (.ok v)) ∧ (LlvmVal.int .w1 z).StoredFrom v := by
  have hcode : ∀ (jop : ArithOp) {v : BitVec 32},
      arithmeticCode op (.int .w1) (.int .w1) = [.arith .i jop] →
      arith env .i jop (.int (x.setWidth 32)) (.int (y.setWidth 32)) = some (.ok (.int v)) →
      v.setWidth 1 = z →
      ∃ v, Acts env (arithmeticCode op (.int .w1) (.int .w1)) [represent y, represent x]
        (some (.ok v)) ∧ (LlvmVal.int .w1 z).StoredFrom v := by
    intro jop v hcode harith hv
    have hacts : Acts env [.arith .i jop] [represent y, represent x] _ :=
      acts_arith .i jop (represent x) (represent y)
    refine ⟨.int v, ?_, storedFrom_int (w := .w1) (by simp) hv⟩
    rw [hcode]
    rwa [show represent x = .int (x.setWidth 32) from rfl,
      show represent y = .int (y.setWidth 32) from rfl, harith] at hacts
  simp only [List.mem_cons, List.not_mem_nil, or_false] at hop
  rcases hop with rfl | rfl | rfl | rfl | rfl | rfl <;> cases hdef
  · exact hcode .add rfl rfl (by simp [BitVec.setWidth_add])
  · refine hcode .sub rfl rfl ?_
    rcases BitVec.eq_zero_or_eq_one x with rfl | rfl <;>
      rcases BitVec.eq_zero_or_eq_one y with rfl | rfl <;> decide
  · exact hcode .mul rfl rfl (by simp [BitVec.setWidth_mul])
  · exact hcode .and rfl rfl (by simp)
  · exact hcode .or rfl rfl (by simp)
  · exact hcode .xor rfl rfl (by simp)

theorem floatOperator_code {op : BinaryOp} {jop : ArithOp} (h : floatOperator op = some jop)
    (ty : Ty) : arithmeticCode op ty ty = [.arith ty.letter jop] := by
  cases op <;> cases h <;> rfl

/-- The arithmetic of two loaded operands. -/
theorem acts_arithmeticCode {op : BinaryOp} {x y z : LlvmVal}
    (hexact : ArithmeticExact op x y) (hz : llvmArithmetic env op x y = some z) :
    ∃ v, Acts env (arithmeticCode op x.type y.type) [y.represent, x.represent] (some (.ok v)) ∧
      z.StoredFrom v := by
  cases x <;> cases y <;> simp only [llvmArithmetic, reduceCtorEq] at hz
  case int.int w x w' y =>
    split at hz
    next heq =>
      subst heq
      simp only [BitVec.setWidth_eq, Option.map_eq_some_iff] at hz
      obtain ⟨r, hr, rfl⟩ := hz
      rcases hexact with ⟨hw, hshift⟩ | ⟨hw, hop⟩
      · exact acts_arithmetic_int hw hr hshift
      · subst hw
        exact acts_arithmetic_bit hop hr
    next => cases hz
  case float.float x y =>
    simp only [Option.bind_eq_bind, Option.bind_eq_some_iff] at hz
    obtain ⟨jop, hjop, v, hv, hr⟩ := hz
    have hacts : Acts env [.arith .f jop] [.float y, .float x] _ := acts_arith .f jop _ _
    cases v <;> cases hr
    refine ⟨_, ?_, LlvmVal.represent_storedFrom _⟩
    simp only [arith, hv, Option.map_some] at hacts
    exact floatOperator_code hjop .float ▸ hacts
  case double.double x y =>
    simp only [Option.bind_eq_bind, Option.bind_eq_some_iff] at hz
    obtain ⟨jop, hjop, v, hv, hr⟩ := hz
    have hacts : Acts env [.arith .d jop] [.double y, .double x] _ := acts_arith .d jop _ _
    cases v <;> cases hr
    refine ⟨_, ?_, LlvmVal.represent_storedFrom _⟩
    simp only [arith, hv, Option.map_some] at hacts
    exact floatOperator_code hjop .double ▸ hacts

/-- The casts that the writer gets wrong are those of `IntCast.Misses`. -/
def CastExact (op : CastOp) (x : LlvmVal) (ty : Ty) : Prop :=
  match op, x, ty with
  | .trunc, .int src _, .int dest => (IntCast.trunc src dest).Allowed
  | .zext, .int src _, .int dest => (IntCast.zext src dest).Allowed
  | .sext, .int src x, .int dest =>
      (IntCast.sext src dest).Allowed ∧ ¬ (IntCast.sext src dest).Misses x
  | .ptrtoint, .pointer a, .int dest =>
      (IntCast.ptrtoint dest).Allowed ∧ ¬ (IntCast.ptrtoint dest).Misses a
  | .inttoptr, .int src x, .pointer =>
      (IntCast.inttoptr src).Allowed ∧ ¬ (IntCast.inttoptr src).Misses x
  | .sitofp, .int w _, _ => w ∈ longWidths
  | .fptosi, _, .int w => w ∈ longWidths
  | _, _, _ => True

variable (env) in
theorem acts_intCast {k : IntCast} (hk : k.Allowed) {x : BitVec k.srcBits} (hmiss : ¬ k.Misses x) :
    ∃ v, Acts env (castCode k.op k.destTy k.srcTy) [represent x] (some (.ok v)) ∧
      StoresAs k.destTy (k.eval x) v := by
  obtain ⟨v, hcode, hstores⟩ := intCast_delivers env hk x
  rw [(IntCast.performed_eq_eval_iff hk x).mpr hmiss] at hstores
  exact ⟨v, hcode ▸ acts_unaryCode (castCode_isUnary k.op k.destTy k.srcTy) _, hstores⟩

theorem mem_longWidths {w : IntWidth} (hw : w ∈ longWidths) :
    w = .w8 ∨ w = .w16 ∨ w = .w32 ∨ w = .w64 := by
  simpa only [longWidths, List.mem_cons, List.not_mem_nil, or_false] using hw

/-- A narrow integer is extended once more before a conversion to a floating point value. -/
theorem castCode_sitofp {w : IntWidth} (hw : w ∈ longWidths) (x : BitVec w.bits) {ty : Ty}
    (hty : ty.letter = .f ∨ ty.letter = .d) : castCode .sitofp ty (.int w) =
      (if w.bits < 32 then [.conv .i (getTypePrefix (.int w) false)] else []) ++
        [.conv (signedOperand w x).1 ty.letter] := by
  have hconv : ∀ p, p = .i ∨ p = .l → printCastPrefix ty.letter p = [.conv p ty.letter] := by
    rintro p (rfl | rfl) <;> rcases hty with h | h <;> simp [printCastPrefix, h]
  have hletter : getTypePrefix ty true = ty.letter := rfl
  rcases mem_longWidths hw with rfl | rfl | rfl | rfl <;> simp only [castCode, hletter]
  · exact congrArg _ (hconv .i (.inl rfl))
  · exact congrArg _ (hconv .i (.inl rfl))
  · exact congrArg _ (hconv .i (.inl rfl))
  · exact congrArg _ (hconv .l (.inr rfl))

theorem acts_signedOperand {w : IntWidth} (hw : w ∈ longWidths) (x : BitVec w.bits) {ty : Ty}
    (hty : ty.letter = .f ∨ ty.letter = .d) {v : Val}
    (hv : env.float (.conv (signedOperand w x).1 ty.letter) [(signedOperand w x).2] = some v) :
    Acts env (castCode .sitofp ty (.int w)) [represent x] (some (.ok v)) := by
  have hconv : Acts env [.conv (signedOperand w x).1 ty.letter] [(signedOperand w x).2]
      (some (.ok v)) := by
    have hacts : Acts env [.conv (signedOperand w x).1 ty.letter] [(signedOperand w x).2] _ :=
      acts_conv _ _ _
    have hfloat : conv env (signedOperand w x).1 ty.letter (signedOperand w x).2 = some v := by
      rw [← hv]
      rcases mem_longWidths hw with rfl | rfl | rfl | rfl <;> rcases hty with h | h <;> rw [h] <;>
        rfl
    rwa [hfloat] at hacts
  have hfirst : ∀ p, conv env .i p (represent x) = some (represent x) →
      Acts env [.conv .i p] [represent x] (some (.ok (represent x))) := by
    intro p h
    have hacts : Acts env [.conv .i p] [represent x] _ := acts_conv .i p _
    rwa [h] at hacts
  rw [castCode_sitofp hw x hty]
  rcases mem_longWidths hw with rfl | rfl | rfl | rfl
  · refine (hfirst .b ?_).append_ok hconv
    simp [represent, conv, setWidth_signExtend_cut]
  · refine (hfirst .s ?_).append_ok hconv
    simp [represent, conv, setWidth_signExtend_cut]
  · exact hconv
  · have hrep : represent x = .long (x.signExtend 64) := by simp [represent]
    rw [hrep]
    exact hconv

/-- The result of a conversion is cut to its type when it is stored. -/
theorem storedFrom_signedResult {w : IntWidth} (hw : w ∈ longWidths) {v : Val} {z : LlvmVal}
    (h : signedResult w v = some z) : z.StoredFrom v ∧ z.type = .int w := by
  cases v <;> simp only [signedResult, reduceCtorEq] at h
  case int r =>
    split at h <;> cases h
    next hr =>
      have hmem : w ∈ intWidths := by
        rcases mem_longWidths hw with rfl | rfl | rfl | rfl
        · simp
        · simp
        · simp
        · exact absurd hr.2 (by decide)
      exact ⟨storedFrom_int hmem rfl, rfl⟩
  case long r =>
    split at h <;> cases h
    next hr =>
      obtain rfl : w = .w64 := by
        rcases mem_longWidths hw with rfl | rfl | rfl | rfl
        · exact absurd hr.2 (by decide)
        · exact absurd hr.2 (by decide)
        · exact absurd hr.2 (by decide)
        · rfl
      exact ⟨storesAs_long (by simp), rfl⟩

/-- One conversion between floating point values or to an integer. -/
theorem acts_conversion (src dest : Prefix) (hsrc : src = .f ∨ src = .d) {x v : Val}
    (hx : x.letter = src) (hdest : dest ≠ src)
    (hint : dest = .i ∨ dest = .l ∨ dest = .f ∨ dest = .d)
    (hv : env.float (.conv src dest) [x] = some v) :
    Acts env [.conv src dest] [x] (some (.ok v)) := by
  have hacts : Acts env [.conv src dest] [x] _ := acts_conv src dest x
  have hfloat : conv env src dest x = some v := by
    rw [← hv]
    rcases hsrc with rfl | rfl <;> cases x <;> cases hx <;>
      rcases hint with rfl | rfl | rfl | rfl <;> first | rfl | exact (hdest rfl).elim
  rwa [hfloat] at hacts

theorem acts_fptosi {w : IntWidth} {ty : Ty} (hty : ty = .float ∨ ty = .double)
    (hw : w ∈ longWidths) {x v : Val} (hx : x.letter = ty.letter)
    (hv : env.float (.conv ty.letter (Ty.int w).letter) [x] = some v) :
    Acts env (castCode .fptosi (.int w) ty) [x] (some (.ok v)) := by
  have hcode : castCode .fptosi (.int w) ty = [.conv ty.letter (Ty.int w).letter] := by
    rcases hty with rfl | rfl <;> rcases mem_longWidths hw with rfl | rfl | rfl | rfl <;> rfl
  have hletter : (Ty.int w).letter = .i ∨ (Ty.int w).letter = .l := by
    rw [LlvmVal.letter_int]
    split_ifs <;> simp
  have hsrc : ty.letter = .f ∨ ty.letter = .d := by
    rcases hty with rfl | rfl
    · exact .inl rfl
    · exact .inr rfl
  rw [hcode]
  refine acts_conversion _ _ hsrc hx ?_ ?_ hv
  · rcases hletter with h | h <;> rcases hsrc with h' | h' <;> simp [h, h']
  · rcases hletter with h | h <;> simp [h]

/-- The casts of a loaded operand. -/
theorem acts_castCode {op : CastOp} {x z : LlvmVal} {ty : Ty} (hexact : CastExact op x ty)
    (hz : llvmCast env op x ty = some z) :
    ∃ v, Acts env (castCode op ty x.type) [x.represent] (some (.ok v)) ∧ z.StoredFrom v ∧
      z.type = ty := by
  unfold llvmCast at hz
  split at hz
  case h_1 src x dest =>
    split at hz <;> cases hz
    obtain ⟨v, hacts, hstores⟩ := acts_intCast env (k := .trunc src dest) hexact (x := x)
      (fun h => h)
    exact ⟨v, hacts, hstores, rfl⟩
  case h_2 src x dest =>
    split at hz <;> cases hz
    obtain ⟨v, hacts, hstores⟩ := acts_intCast env (k := .zext src dest) hexact (x := x)
      (fun h => h)
    exact ⟨v, hacts, hstores, rfl⟩
  case h_3 src x dest =>
    split at hz <;> cases hz
    obtain ⟨v, hacts, hstores⟩ := acts_intCast env (k := .sext src dest) hexact.1 hexact.2
    exact ⟨v, hacts, hstores, rfl⟩
  case h_4 a dest =>
    cases hz
    obtain ⟨v, hacts, hstores⟩ := acts_intCast env (k := .ptrtoint dest) hexact.1 hexact.2
    have hrep : represent a = .int a := by simp [represent]
    rw [hrep] at hacts
    exact ⟨v, hacts, hstores, rfl⟩
  case h_5 src x =>
    cases hz
    obtain ⟨v, hacts, hstores⟩ := acts_intCast env (k := .inttoptr src) hexact.1 hexact.2
    have hrep : represent (x.setWidth 32) = .int (x.setWidth 32) := by simp [represent]
    exact ⟨v, hacts, ⟨hstores.1, hstores.2.trans hrep⟩, rfl⟩
  case h_6 a =>
    cases hz
    exact ⟨.int a, .nil _, LlvmVal.represent_storedFrom (.pointer a), rfl⟩
  case h_7 w x =>
    simp only [Option.bind_eq_bind, Option.bind_eq_some_iff] at hz
    obtain ⟨v, hv, hz⟩ := hz
    cases v <;> cases hz
    exact ⟨_, acts_signedOperand hexact x (.inl rfl) hv, LlvmVal.represent_storedFrom _, rfl⟩
  case h_8 w x =>
    simp only [Option.bind_eq_bind, Option.bind_eq_some_iff] at hz
    obtain ⟨v, hv, hz⟩ := hz
    cases v <;> cases hz
    exact ⟨_, acts_signedOperand hexact x (.inr rfl) hv, LlvmVal.represent_storedFrom _, rfl⟩
  case h_9 x w =>
    simp only [Option.bind_eq_bind, Option.bind_eq_some_iff] at hz
    obtain ⟨v, hv, hz⟩ := hz
    obtain ⟨hstored, hty⟩ := storedFrom_signedResult hexact hz
    exact ⟨v, acts_fptosi (.inl rfl) hexact rfl hv, hstored, hty⟩
  case h_10 x w =>
    simp only [Option.bind_eq_bind, Option.bind_eq_some_iff] at hz
    obtain ⟨v, hv, hz⟩ := hz
    obtain ⟨hstored, hty⟩ := storedFrom_signedResult hexact hz
    exact ⟨v, acts_fptosi (.inr rfl) hexact rfl hv, hstored, hty⟩
  case h_11 x =>
    simp only [Option.bind_eq_bind, Option.bind_eq_some_iff] at hz
    obtain ⟨v, hv, hz⟩ := hz
    cases v <;> cases hz
    exact ⟨_, acts_conversion .d .f (.inr rfl) rfl (by simp) (by simp) hv,
      LlvmVal.represent_storedFrom _, rfl⟩
  case h_12 x =>
    simp only [Option.bind_eq_bind, Option.bind_eq_some_iff] at hz
    obtain ⟨v, hv, hz⟩ := hz
    cases v <;> cases hz
    exact ⟨_, acts_conversion .f .d (.inl rfl) rfl (by simp) (by simp) hv,
      LlvmVal.represent_storedFrom _, rfl⟩
  case h_13 => cases hz

/-- Bits are compared as numbers without sign. -/
def CmpExact (pred : CmpPredicate) : LlvmVal → Prop
  | .int w _ => w ∈ longWidths ∨ w = .w1 ∧ ∀ p, pred = .icmp p →
      p ∈ [Instruction.Predicate.eq, .ne, .ugt, .uge, .ult, .ule]
  | _ => True

theorem storedFrom_bit (b : Bool) :
    (LlvmVal.int .w1 (BitVec.ofBool b)).StoredFrom (.int (if b then 1#32 else 0#32)) := by
  cases b <;> exact ⟨rfl, rfl⟩

theorem acts_cmp_bit {pred : Instruction.Predicate}
    (hpred : pred ∈ [Instruction.Predicate.eq, .ne, .ugt, .uge, .ult, .ule]) (x y : BitVec 1) :
    Acts env (cmpCode (.icmp pred) (.int .w1)) [represent y, represent x]
      (some (.ok (.int (if llvmCompare pred x y then 1#32 else 0#32)))) := by
  have hacts : Acts env [.invokestatic (.icmp pred .I)] [represent y, represent x]
      (invokePure env (.icmp pred .I) [represent x, represent y]) := acts_invoke rfl rfl
  have hcompare : Instruction.icmp pred (x.setWidth 32) (y.setWidth 32) = llvmCompare pred x y := by
    rw [icmp_eq_llvmCompare]
    simp only [List.mem_cons, List.not_mem_nil, or_false] at hpred
    rcases BitVec.eq_zero_or_eq_one x with rfl | rfl <;>
      rcases BitVec.eq_zero_or_eq_one y with rfl | rfl <;>
      rcases hpred with rfl | rfl | rfl | rfl | rfl | rfl <;> rfl
  rw [← hcompare]
  exact hacts

/-- The comparison of two loaded operands. -/
theorem acts_cmpCode {pred : CmpPredicate} {x y z : LlvmVal} (hexact : CmpExact pred x)
    (hz : llvmCmp pred x y = some z) :
    ∃ v, Acts env (cmpCode pred x.type) [y.represent, x.represent] (some (.ok v)) ∧
      z.StoredFrom v ∧ z.type = .int .w1 := by
  unfold llvmCmp at hz
  split at hz
  case h_1 pred w x w' y =>
    split at hz
    next heq =>
      subst heq
      cases hz
      rw [BitVec.setWidth_eq]
      rcases hexact with hw | ⟨rfl, hpred⟩
      · exact ⟨_, acts_icmp (.inl ⟨rfl, hw⟩) pred x y, storedFrom_bit _, rfl⟩
      · exact ⟨_, acts_cmp_bit (hpred pred rfl) x y, storedFrom_bit _, rfl⟩
    next => cases hz
  case h_2 pred x y =>
    cases hz
    have hacts := @acts_icmp env .pointer .w32 (.inr ⟨rfl, rfl⟩) pred x y
    have hrep : ∀ a : BitVec 32, represent a = .int a := fun a => by simp [represent]
    rw [hrep, hrep] at hacts
    exact ⟨_, hacts, storedFrom_bit _, rfl⟩
  case h_3 pred x y =>
    cases hz
    have hacts : Acts env [.invokestatic (.fcmp pred .F)] [.float y, .float x]
        (invokePure env (.fcmp pred .F) [.float x, .float y]) := acts_invoke rfl rfl
    rw [← fcmp_eq_llvmFloatCompare]
    exact ⟨_, hacts, storedFrom_bit _, rfl⟩
  case h_4 pred x y =>
    cases hz
    have hacts : Acts env [.invokestatic (.fcmp pred .D)] [.double y, .double x]
        (invokePure env (.fcmp pred .D) [.double x, .double y]) := acts_invoke rfl rfl
    rw [← fcmp_eq_llvmFloatCompare]
    exact ⟨_, hacts, storedFrom_bit _, rfl⟩
  case h_5 => cases hz

end computations

end Llxvm.Backend
