import Llxvm.Backend.Locals

/-!
# Integer arithmetic

`printArithmeticInstruction` followed by `printValueStore`, compared with the integer
operations of LLVM.  Narrow values are kept sign extended and are cut back only at the
store, so each operation has to be insensitive to the high bits of its operands.
-/

namespace Llxvm.Backend

open Llxvm.Jvm Llxvm.Runtime SignExtend

/-- The integer operations of LLVM, where they define a result. -/
def llvmBinary {n : ℕ} (op : BinaryOp) (x y : BitVec n) : Option (BitVec n) :=
  match op with
  | .add => some (x + y)
  | .sub => some (x - y)
  | .mul => some (x * y)
  | .sdiv => if y = 0#n ∨ (x = BitVec.intMin n ∧ y = -1#n) then none else some (x.sdiv y)
  | .srem => if y = 0#n ∨ (x = BitVec.intMin n ∧ y = -1#n) then none else some (x.srem y)
  | .udiv => if y = 0#n then none else some (x / y)
  | .urem => if y = 0#n then none else some (x % y)
  | .and => some (x &&& y)
  | .or => some (x ||| y)
  | .xor => some (x ^^^ y)
  | .shl => if y.toNat < n then some (x <<< y.toNat) else none
  | .lshr => if y.toNat < n then some (x >>> y.toNat) else none
  | .ashr => if y.toNat < n then some (x.sshiftRight y.toNat) else none
  | _ => none

/-- The code of a binary instruction in a basic block. -/
def printBinary (opts : GenerationOpts) (op : BinaryOp) (left right : Value) (result : Local) :
    Emit Code := do
  let code ← printArithmeticInstruction opts op left right
  let store ← printValueStore opts result
  return code ++ store

/-- The printed code runs to its end and leaves `z` in the local of the result. -/
def Computes (env : Env) (code : Option (Code × Writer)) (c : Config) (n : ℕ) (z : Val) : Prop :=
  ∃ is w, code = some (is, w) ∧ ∃ c', run env is none c = .fall c' ∧ c'.locals n = some z

section binary

variable {env : Env} {opts : GenerationOpts} {w : Writer} {op : BinaryOp}
  {left right result : Local} {a b r : ℕ} {c : Config} {va vb v : Val}

theorem printBinary_eq (ha : w.Has left a) (hb : w.Has right b) (hr : w.Has result r) :
    printBinary opts op (.var left) (.var right) result w =
      some (([.load (getTypePrefix left.ty true) (localForm opts a) a] ++
          [.load (getTypePrefix right.ty true) (localForm opts b) b] ++
          arithmeticCode op left.ty right.ty) ++
        (truncateCode result.ty ++
          [.store (getTypePrefix result.ty true) (localForm opts r) r]), w) := by
  simp only [printBinary, printArithmeticInstruction, emit_bind, emit_pure, Option.bind_some,
    printValueLoad_var ha, printValueLoad_var hb, printValueStore_eq hr]
  rfl

/-- Once the operation is known to deliver a value, the store decides. -/
theorem computes_iff_of_acts (ha : w.Has left a) (hb : w.Has right b) (hr : w.Has result r)
    (hva : c.locals a = some va) (hvb : c.locals b = some vb) (hla : va.letter = left.ty.letter)
    (hlb : vb.letter = right.ty.letter)
    (hacts : Acts env (arithmeticCode op left.ty right.ty) [vb, va] (some (.ok v)))
    (hlv : v.letter = result.ty.letter) (z : Val) :
    Computes env (printBinary opts op (.var left) (.var right) result w) c r z ↔
      normalize result.ty v = z := by
  have hrun : run env (([.load (getTypePrefix left.ty true) (localForm opts a) a] ++
          [.load (getTypePrefix right.ty true) (localForm opts b) b] ++
          arithmeticCode op left.ty right.ty) ++
        (truncateCode result.ty ++ [.store (getTypePrefix result.ty true) (localForm opts r) r]))
        none c = .fall { c with locals := c.locals.set r (normalize result.ty v) } := by
    have hop : run env (arithmeticCode op left.ty right.ty) none ((c.push va).push vb) =
        .fall (c.push v) := hacts c
    rw [List.append_assoc, List.append_assoc, run_append_of_fall (run_load hva hla _),
      run_append_of_fall (run_load (c := c.push va) hvb hlb _), run_append_of_fall hop]
    exact run_store hlv _ r c
  rw [printBinary_eq ha hb hr]
  constructor
  · rintro ⟨is, w', heq, c', hfall, hz⟩
    cases heq
    rw [hrun] at hfall
    cases hfall
    simpa using hz
  · rintro rfl
    exact ⟨_, _, rfl, _, hrun, by simp⟩

end binary

/-! ## Widths up to 32 -/

/-- The widths of `byte`, `short` and `int`. -/
def IntWidth.Narrow (w : IntWidth) : Prop := w = .w8 ∨ w = .w16 ∨ w = .w32

namespace IntWidth.Narrow

variable {w : IntWidth}

theorem le (h : w.Narrow) : w.bits ≤ 32 := by
  rcases h with rfl | rfl | rfl <;> decide

theorem letter (h : w.Narrow) : (Ty.int w).letter = .i := by
  rcases h with rfl | rfl | rfl <;> rfl

theorem represent (h : w.Narrow) (x : BitVec w.bits) :
    Backend.represent x = .int (x.signExtend 32) := by
  rcases h with rfl | rfl | rfl <;> rfl

theorem normalize (h : w.Narrow) (x : BitVec 32) :
    Backend.normalize (.int w) (.int x) = .int ((x.setWidth w.bits).signExtend 32) := by
  rcases h with rfl | rfl | rfl
  · rfl
  · rfl
  · change Val.int x = _
    simp

end IntWidth.Narrow

/-- The JVM operation of an operator other than the two unsigned divisions. -/
def intOp : BinaryOp → Option ArithOp
  | .add => some .add
  | .sub => some .sub
  | .mul => some .mul
  | .sdiv => some .div
  | .srem => some .rem
  | .and => some .and
  | .or => some .or
  | .xor => some .xor
  | .shl => some .shl
  | .lshr => some .ushr
  | .ashr => some .shr
  | _ => none

section narrow

variable {env : Env} {opts : GenerationOpts} {wr : Writer} {op : BinaryOp}
  {left right result : Local} {a b r : ℕ} {c : Config} {w : IntWidth}

theorem acts_arithmetic_narrow (hw : w.Narrow) {jop : ArithOp} (hop : intOp op = some jop)
    (x y : Val) : Acts env (arithmeticCode op (.int w) (.int w)) [y, x] (arith env .i jop x y) := by
  have hcode : arithmeticCode op (.int w) (.int w) = [.arith .i jop] := by
    rcases hw with rfl | rfl | rfl <;> cases op <;> cases hop <;> rfl
  rw [hcode]
  exact acts_arith .i jop x y

/-- The unsigned divisions call methods that take the operands at their own width. -/
theorem acts_division_narrow (hw : w.Narrow) {x y z : BitVec w.bits}
    (hop : op = .udiv ∧ x / y = z ∨ op = .urem ∧ x % y = z) (hy : y ≠ 0) :
    Acts env (arithmeticCode op (.int w) (.int w))
      [.int (y.signExtend 32), .int (x.signExtend 32)] (some (.ok (.int (z.signExtend 32)))) := by
  have hcall : ∀ m : MethodRef, m.isPure → m.arity = 2 →
      arithmeticCode op (.int w) (.int w) = [.invokestatic m] →
      invokePure env m [.int (x.signExtend 32), .int (y.signExtend 32)] =
        some (.ok (.int (z.signExtend 32))) →
      Acts env (arithmeticCode op (.int w) (.int w))
        [.int (y.signExtend 32), .int (x.signExtend 32)] (some (.ok (.int (z.signExtend 32)))) := by
    intro m hpure harity hcode hinvoke
    rw [hcode, ← hinvoke]
    exact acts_invoke hpure harity.symm
  rcases hw with rfl | rfl | rfl <;> rcases hop with ⟨rfl, rfl⟩ | ⟨rfl, rfl⟩
  · have hok : Instruction.udivByte x y = .ok (x / y) := by
      rw [Instruction.udivByte, Instruction.divideBy_javaDiv (by decide) (by decide) (by decide),
        if_neg hy]
    apply hcall (.udiv .B) rfl rfl rfl
    simp [invokePure, argument, divide, setWidth_signExtend, hok, result, Except.map]
  · have hok : Instruction.uremByte x y = .ok (x % y) := by
      rw [Instruction.uremByte, Instruction.divideBy_javaRem (by decide) (by decide) (by decide),
        if_neg hy]
    apply hcall (.urem .B) rfl rfl rfl
    simp [invokePure, argument, remainder, setWidth_signExtend, hok, result, Except.map]
  · have hok : Instruction.udivShort x y = .ok (x / y) := by
      rw [Instruction.udivShort, Instruction.divideBy_javaDiv (by decide) (by decide) (by decide),
        if_neg hy]
    apply hcall (.udiv .S) rfl rfl rfl
    simp [invokePure, argument, divide, setWidth_signExtend, hok, result, Except.map]
  · have hok : Instruction.uremShort x y = .ok (x % y) := by
      rw [Instruction.uremShort, Instruction.divideBy_javaRem (by decide) (by decide) (by decide),
        if_neg hy]
    apply hcall (.urem .S) rfl rfl rfl
    simp [invokePure, argument, remainder, setWidth_signExtend, hok, result, Except.map]
  · have hok : Instruction.udivInt x y = .ok (x / y) := by
      rw [Instruction.udivInt, Instruction.divideBy_javaDiv (by decide) (by decide) (by decide),
        if_neg hy]
    apply hcall (.udiv .I) rfl rfl rfl
    simp [invokePure, argument, divide, hok, result, Except.map]
  · have hok : Instruction.uremInt x y = .ok (x % y) := by
      rw [Instruction.uremInt, Instruction.divideBy_javaRem (by decide) (by decide) (by decide),
        if_neg hy]
    apply hcall (.urem .I) rfl rfl rfl
    simp [invokePure, argument, remainder, hok, result, Except.map]

/-- The shift distance survives the sign extension, since it is below the width. -/
theorem toNat_signExtend_of_lt (hw : w.Narrow) {y : BitVec w.bits} (hy : y.toNat < w.bits) :
    (y.signExtend 32).toNat % 32 = y.toNat := by
  have hmsb : y.msb = false := by
    rw [BitVec.msb_eq_false_iff_two_mul_lt]
    rcases hw with rfl | rfl | rfl <;> simp only at hy ⊢ <;> omega
  rw [BitVec.signExtend_eq_setWidth_of_msb_false hmsb, BitVec.toNat_setWidth_of_le hw.le]
  have := hw.le
  omega

/-- What a narrow instruction delivers, and when its low bits are the result. -/
theorem narrow_delivers (hw : w.Narrow) {x y z : BitVec w.bits}
    (hdef : llvmBinary op x y = some z) :
    ∃ v : BitVec 32, Acts env (arithmeticCode op (.int w) (.int w))
        [.int (y.signExtend 32), .int (x.signExtend 32)] (some (.ok (.int v))) ∧
      (v.setWidth w.bits = z ↔ ¬ (op = .lshr ∧ w.bits < 32 ∧ x.msb = true ∧ y ≠ 0#w.bits)) := by
  have hle := hw.le
  -- all but the logical shift are insensitive to the high bits
  have harith : ∀ (jop : ArithOp) (v : BitVec 32), intOp op = some jop →
      arith env .i jop (.int (x.signExtend 32)) (.int (y.signExtend 32)) = some (.ok (.int v)) →
      op ≠ .lshr → v.setWidth w.bits = z → ∃ v : BitVec 32,
        Acts env (arithmeticCode op (.int w) (.int w))
          [.int (y.signExtend 32), .int (x.signExtend 32)] (some (.ok (.int v))) ∧
        (v.setWidth w.bits = z ↔ ¬ (op = .lshr ∧ w.bits < 32 ∧ x.msb = true ∧ y ≠ 0#w.bits)) := by
    intro jop v hop hrun hne hv
    exact ⟨v, hrun ▸ acts_arithmetic_narrow hw hop _ _, iff_of_true hv fun h => hne h.1⟩
  have hzero : y ≠ 0#w.bits → y.signExtend 32 ≠ 0#32 := fun h h' =>
    h ((signExtend_eq_zero_iff hle y).mp h')
  cases op <;> simp only [llvmBinary, reduceCtorEq] at hdef
  case add =>
    cases hdef
    exact harith .add _ rfl rfl (by decide) (setWidth_add hle x y)
  case sub =>
    cases hdef
    exact harith .sub _ rfl rfl (by decide) (setWidth_sub hle x y)
  case mul =>
    cases hdef
    exact harith .mul _ rfl rfl (by decide) (setWidth_mul hle x y)
  case and =>
    cases hdef
    exact harith .and _ rfl rfl (by decide) (setWidth_and hle x y)
  case or =>
    cases hdef
    exact harith .or _ rfl rfl (by decide) (setWidth_or hle x y)
  case xor =>
    cases hdef
    exact harith .xor _ rfl rfl (by decide) (setWidth_xor hle x y)
  case sdiv =>
    split at hdef
    · cases hdef
    · next hy =>
        cases hdef
        refine harith .div _ rfl ?_ (by decide) (setWidth_sdiv hle x y)
        simp [arith, wordShift, wordArith, javaDiv, hzero (fun h => hy (.inl h)), Except.map]
  case srem =>
    split at hdef
    · cases hdef
    · next hy =>
        cases hdef
        refine harith .rem _ rfl ?_ (by decide) (setWidth_srem hle x y)
        simp [arith, wordShift, wordArith, javaRem, hzero (fun h => hy (.inl h)), Except.map]
  case udiv =>
    split at hdef
    · cases hdef
    · next hy =>
        cases hdef
        exact ⟨_, acts_division_narrow hw (.inl ⟨rfl, rfl⟩) hy,
          iff_of_true (setWidth_signExtend hle _) (by simp)⟩
  case urem =>
    split at hdef
    · cases hdef
    · next hy =>
        cases hdef
        exact ⟨_, acts_division_narrow hw (.inr ⟨rfl, rfl⟩) hy,
          iff_of_true (setWidth_signExtend hle _) (by simp)⟩
  case shl =>
    split at hdef
    · next hy =>
        cases hdef
        refine harith .shl _ rfl ?_ (by decide) (setWidth_shiftLeft hle x y.toNat)
        simp [arith, wordShift, toNat_signExtend_of_lt hw hy]
    · cases hdef
  case ashr =>
    split at hdef
    · next hy =>
        cases hdef
        refine harith .shr _ rfl ?_ (by decide) (setWidth_sshiftRight hle x y.toNat)
        simp [arith, wordShift, toNat_signExtend_of_lt hw hy]
    · cases hdef
  case lshr =>
    split at hdef
    · next hy =>
        cases hdef
        refine ⟨(x.signExtend 32) >>> y.toNat, ?_, ?_⟩
        · have hacts : Acts env (arithmeticCode .lshr (.int w) (.int w))
              [.int (y.signExtend 32), .int (x.signExtend 32)] _ :=
            acts_arithmetic_narrow hw (show intOp .lshr = some .ushr from rfl) _ _
          simpa [arith, wordShift, toNat_signExtend_of_lt hw hy] using hacts
        · have hy₀ : y ≠ 0#w.bits ↔ y.toNat ≠ 0 := by
            rw [ne_eq, ← BitVec.toNat_inj]
            simp
          rw [hy₀]
          by_cases h32 : w.bits < 32
          · have hroom : w.bits + y.toNat ≤ 32 := by
              rcases hw with rfl | rfl | rfl <;> simp only at hy h32 ⊢ <;> omega
            rw [setWidth_ushiftRight_iff x hy hroom]
            simp [h32]
          · obtain rfl : w = .w32 := by
              rcases hw with rfl | rfl | rfl <;> first | rfl | exact (h32 (by decide)).elim
            simp
    · cases hdef

end narrow

/-! ## 64 bits -/

section long

variable {env : Env} {op : BinaryOp}

theorem acts_arithmetic_long {jop : ArithOp} (hop : intOp op = some jop)
    (hshift : op ≠ .shl ∧ op ≠ .lshr ∧ op ≠ .ashr) (x y : Val) :
    Acts env (arithmeticCode op (.int .w64) (.int .w64)) [y, x] (arith env .l jop x y) := by
  have hcode : arithmeticCode op (.int .w64) (.int .w64) = [.arith .l jop] := by
    cases op <;> cases hop <;> first | rfl | simp at hshift
  rw [hcode]
  exact acts_arith .l jop x y

/-- The distance of a shift is cut to an `int` first. -/
theorem acts_shift_long {jop : ArithOp} (hop : intOp op = some jop)
    (hshift : op = .shl ∨ op = .lshr ∨ op = .ashr) (x y : BitVec 64) :
    Acts env (arithmeticCode op (.int .w64) (.int .w64)) [.long y, .long x]
      (arith env .l jop (.long x) (.int (y.setWidth 32))) := by
  have hcode : arithmeticCode op (.int .w64) (.int .w64) = [.conv .l .i] ++ [.arith .l jop] := by
    rcases hshift with rfl | rfl | rfl <;> cases hop <;> rfl
  rw [hcode]
  have hboth : Acts env ([.conv .l .i] ++ [.arith .l jop]) ([.long y] ++ [.long x])
      (arith env .l jop (.long x) (.int (y.setWidth 32))) :=
    Acts.append_ok (acts_conv .l .i (.long y)) (acts_arith .l jop (.long x) (.int (y.setWidth 32)))
  exact hboth

theorem acts_division_long {x y z : BitVec 64}
    (hop : op = .udiv ∧ x / y = z ∨ op = .urem ∧ x % y = z) (hy : y ≠ 0) :
    Acts env (arithmeticCode op (.int .w64) (.int .w64)) [.long y, .long x]
      (some (.ok (.long z))) := by
  rcases hop with ⟨rfl, rfl⟩ | ⟨rfl, rfl⟩
  · have hok : Instruction.udivLong x y = .ok (x / y) := by rw [Instruction.udivLong_eq, if_neg hy]
    have hinvoke : invokePure env (.udiv .J) [.long x, .long y] = some (.ok (.long (x / y))) := by
      simp [invokePure, argument, divide, hok, result, Except.map]
    rw [← hinvoke]
    exact acts_invoke (m := .udiv .J) rfl rfl
  · have hok : Instruction.uremLong x y = .ok (x % y) := by rw [Instruction.uremLong_eq, if_neg hy]
    have hinvoke : invokePure env (.urem .J) [.long x, .long y] = some (.ok (.long (x % y))) := by
      simp [invokePure, argument, remainder, hok, result, Except.map]
    rw [← hinvoke]
    exact acts_invoke (m := .urem .J) rfl rfl

theorem long_delivers {x y z : BitVec 64} (hdef : llvmBinary op x y = some z) :
    Acts env (arithmeticCode op (.int .w64) (.int .w64)) [.long y, .long x]
      (some (.ok (.long z))) := by
  have harith : ∀ jop : ArithOp, intOp op = some jop → (op ≠ .shl ∧ op ≠ .lshr ∧ op ≠ .ashr) →
      arith env .l jop (.long x) (.long y) = some (.ok (.long z)) →
      Acts env (arithmeticCode op (.int .w64) (.int .w64)) [.long y, .long x]
        (some (.ok (.long z))) := by
    intro jop hop hshift hrun
    exact hrun ▸ acts_arithmetic_long hop hshift _ _
  cases op <;> simp only [llvmBinary, reduceCtorEq] at hdef
  case add =>
    cases hdef
    exact harith .add rfl (by decide) rfl
  case sub =>
    cases hdef
    exact harith .sub rfl (by decide) rfl
  case mul =>
    cases hdef
    exact harith .mul rfl (by decide) rfl
  case and =>
    cases hdef
    exact harith .and rfl (by decide) rfl
  case or =>
    cases hdef
    exact harith .or rfl (by decide) rfl
  case xor =>
    cases hdef
    exact harith .xor rfl (by decide) rfl
  case sdiv =>
    split at hdef
    · cases hdef
    · next hy =>
        cases hdef
        refine harith .div rfl (by decide) ?_
        simp [arith, wordArith, javaDiv, show y ≠ 0#64 from fun h => hy (.inl h), Except.map]
  case srem =>
    split at hdef
    · cases hdef
    · next hy =>
        cases hdef
        refine harith .rem rfl (by decide) ?_
        simp [arith, wordArith, javaRem, show y ≠ 0#64 from fun h => hy (.inl h), Except.map]
  case udiv =>
    split at hdef
    · cases hdef
    · next hy =>
        cases hdef
        exact acts_division_long (.inl ⟨rfl, rfl⟩) hy
  case urem =>
    split at hdef
    · cases hdef
    · next hy =>
        cases hdef
        exact acts_division_long (.inr ⟨rfl, rfl⟩) hy
  case shl =>
    split at hdef
    · next hy =>
        cases hdef
        have hacts : Acts env (arithmeticCode .shl (.int .w64) (.int .w64)) [.long y, .long x] _ :=
          acts_shift_long rfl (.inl rfl) x y
        simpa [arith, wordShift, Nat.mod_eq_of_lt hy] using hacts
    · cases hdef
  case lshr =>
    split at hdef
    · next hy =>
        cases hdef
        have hacts : Acts env (arithmeticCode .lshr (.int .w64) (.int .w64)) [.long y, .long x] _ :=
          acts_shift_long rfl (.inr (.inl rfl)) x y
        simpa [arith, wordShift, Nat.mod_eq_of_lt hy] using hacts
    · cases hdef
  case ashr =>
    split at hdef
    · next hy =>
        cases hdef
        have hacts : Acts env (arithmeticCode .ashr (.int .w64) (.int .w64)) [.long y, .long x] _ :=
          acts_shift_long rfl (.inr (.inr rfl)) x y
        simpa [arith, wordShift, Nat.mod_eq_of_lt hy] using hacts
    · cases hdef

end long

/-! ## All widths -/

/-- The instructions compute the results of LLVM, except that a logical right shift of a
negative `i8` or `i16` by a positive distance moves copies of the sign bit into the result. -/
theorem printBinary_faithful_iff (env : Env) (opts : GenerationOpts) (wr : Writer) (w : IntWidth)
    (hw : w ∈ [IntWidth.w8, .w16, .w32, .w64]) (op : BinaryOp) (left right result : Local)
    (hleft : left.ty = .int w) (hright : right.ty = .int w) (hresult : result.ty = .int w)
    (a b r : ℕ) (ha : wr.Has left a) (hb : wr.Has right b) (hr : wr.Has result r)
    (x y z : BitVec w.bits) (hdef : llvmBinary op x y = some z) (c : Config)
    (hx : c.locals a = some (represent x)) (hy : c.locals b = some (represent y)) :
    Computes env (printBinary opts op (.var left) (.var right) result wr) c r (represent z) ↔
      ¬ (op = .lshr ∧ w.bits < 32 ∧ x.msb = true ∧ y ≠ 0#w.bits) := by
  have hcases : w.Narrow ∨ w = .w64 := by
    simp only [List.mem_cons, List.not_mem_nil, or_false] at hw
    unfold IntWidth.Narrow
    tauto
  obtain ⟨li, lt⟩ := left
  obtain ⟨ri, rt⟩ := right
  obtain ⟨si, st⟩ := result
  obtain rfl : lt = .int w := hleft
  obtain rfl : rt = .int w := hright
  obtain rfl : st = .int w := hresult
  rcases hcases with hw | rfl
  · rw [hw.represent] at hx hy
    obtain ⟨v, hacts, hv⟩ := narrow_delivers hw hdef
    rw [computes_iff_of_acts ha hb hr hx hy hw.letter.symm hw.letter.symm hacts hw.letter.symm,
      ← hv, hw.normalize, hw.represent]
    constructor
    · intro heq
      exact signExtend_injective hw.le (Val.int.inj heq)
    · intro heq
      rw [heq]
  · have hrep : ∀ x : BitVec 64, represent x = .long x := fun x => by simp [represent]
    rw [hrep] at hx hy
    rw [computes_iff_of_acts ha hb hr hx hy rfl rfl (long_delivers hdef) rfl, hrep]
    exact iff_of_true rfl (by simp)

/-- `lshr` at 32 bits, of a negative value. -/
theorem printBinary_faithful_lshr_i32 :
    Computes .plain
      (printBinary ⟨false, false, false, false⟩ .lshr (.var ⟨0, .int .w32⟩) (.var ⟨1, .int .w32⟩)
        ⟨2, .int .w32⟩ ⟨[(0, 0), (1, 1), (2, 2)], 3, [], 0, 700, none⟩)
      ⟨fun n => if n = 0 then some (.int (-16)) else some (.int 28), [], Memory.initial⟩ 2
      (.int 0xf) :=
  (printBinary_faithful_iff .plain ⟨false, false, false, false⟩
    ⟨[(0, 0), (1, 1), (2, 2)], 3, [], 0, 700, none⟩ .w32 (by decide) .lshr ⟨0, .int .w32⟩
    ⟨1, .int .w32⟩ ⟨2, .int .w32⟩ rfl rfl rfl 0 1 2 rfl rfl rfl (-16) 28 0xf (by decide)
    ⟨fun n => if n = 0 then some (.int (-16)) else some (.int 28), [], Memory.initial⟩ (by decide)
    (by decide)).mpr (by decide)

/-- `lshr i8 -16, 4` is `15`; the translated code leaves `-1` in the local. -/
theorem printBinary_lshr_i8 :
    llvmBinary .lshr 0xf0#8 4#8 = some 0xf#8 ∧
      ¬ Computes .plain
        (printBinary ⟨false, false, false, false⟩ .lshr (.var ⟨0, .int .w8⟩) (.var ⟨1, .int .w8⟩)
          ⟨2, .int .w8⟩ ⟨[(0, 0), (1, 1), (2, 2)], 3, [], 0, 700, none⟩)
        ⟨fun n => if n = 0 then some (represent 0xf0#8) else some (represent 4#8), [],
          Memory.initial⟩ 2 (represent 0xf#8) := by
  refine ⟨by decide, ?_⟩
  rintro ⟨is, w, hcode, c, hrun, hlocal⟩
  cases hcode
  cases hrun
  revert hlocal
  decide

end Llxvm.Backend
