import Llxvm.Backend.IntConstants
import Llxvm.Backend.Loads
import Llxvm.Backend.RunLines

/-!
# Calls of intrinsic functions

The code of `printIntrinsicCall` for the mathematical functions, the byte swap and the
maximum.  In the operand list of a call the arguments come first and the function last;
`printMathIntrinsic` and `printBitIntrinsic` read it from the second operand on.
-/

namespace Llxvm.Backend

open Llxvm.Jvm Llxvm.Runtime

/-! ## Calls and their results -/

/-- The calls with their arguments.  `parameter` is the parameter of the declaration of the
byte swap, which is a variable of its own. -/
inductive IntrinsicCall where
  | math (fn : MathFunction) (args : List Value) (callee : FunctionRef)
  | bswap (w : IntWidth) (arg : Value) (parameter : Local)
  | smax (left right : Value)

namespace IntrinsicCall

def args : IntrinsicCall → List Value
  | math _ args _ => args
  | bswap _ arg _ => [arg]
  | smax left right => [left, right]

/-- The call as `printIntrinsicCall` receives it. -/
def inst : IntrinsicCall → IntrinsicInst
  | math fn args callee => .math fn (args ++ [.const (.function callee)])
  | bswap w _ parameter => .bswap (.int w) parameter
  | smax left right => .smax left right

/-- The result of the method for the call on given arguments; a `float` is computed as a
`double`. -/
inductive HasResult (env : Env) (math : MathFunction → List (BitVec 64) → BitVec 64) :
    IntrinsicCall → List Val → Val → Prop
  | double (fn : MathFunction) (args : List Value) (callee : FunctionRef) (xs : List (BitVec 64)) :
      HasResult env math (.math fn args callee) (xs.map .double) (.double (math fn xs))
  | single (fn : MathFunction) (args : List Value) (callee : FunctionRef) (xs : List (BitVec 32))
      (ys : List (BitVec 64)) (z : BitVec 32)
      (hxs : List.Forall₂ (fun x y => env.float (.conv .f .d) [.float x] = some (.double y)) xs ys)
      (hz : env.float (.conv .d .f) [.double (math fn ys)] = some (.float z)) :
      HasResult env math (.math fn args callee) (xs.map .float) (.float z)
  | bswap {w : IntWidth} (arg : Value) (parameter : Local) {x y : BitVec w.bits}
      (h : ByteReverse.Reverses x y) :
      HasResult env math (.bswap w arg parameter) [represent x] (represent y)
  | smax (left right : Value) {w : IntWidth} (x y : BitVec w.bits) :
      HasResult env math (.smax left right) [represent x, represent y]
        (represent (if y.slt x then x else y))

/-- The arguments have the types of the function, and the local of the parameter of a byte
swap holds the number `p`. -/
inductive Typed (w : Writer) (locals : Locals) : IntrinsicCall → List Val → Prop
  | double (fn : MathFunction) (args : List Value) (callee : FunctionRef) (xs : List (BitVec 64))
      (harity : xs.length = fn.arity) (hargs : ∀ v ∈ args, v.type = .double) :
      Typed w locals (.math fn args callee) (xs.map .double)
  | single (fn : MathFunction) (args : List Value) (callee : FunctionRef) (xs : List (BitVec 32))
      (harity : xs.length = fn.arity) (hargs : ∀ v ∈ args, v.type = .float) :
      Typed w locals (.math fn args callee) (xs.map .float)
  | bswap {width : IntWidth} (hwidth : width ∈ [IntWidth.w16, .w32, .w64]) (arg : Value)
      (parameter : Local) (hty : parameter.ty = .int width) (n : ℕ) (hhas : w.Has parameter n)
      (p : BitVec width.bits) (hp : locals n = some (represent p)) (x : BitVec width.bits) :
      Typed w locals (.bswap width arg parameter) [represent x]
  | smax (left right : Value) {width : IntWidth} (hleft : left.type = .int width)
      (hright : right.type = .int width) (x y : BitVec width.bits) :
      Typed w locals (.smax left right) [represent x, represent y]

/-- What the operands that are loaded have to do with the arguments. -/
def LoadsArgs (w : Writer) (locals : Locals) : IntrinsicCall → List Val → Prop
  | math _ _ _, _ => False
  | bswap _ _ parameter, xs => ∀ n, w.Has parameter n → locals n = xs.head?
  | smax left _, _ => left.type ≠ .int .w1

end IntrinsicCall

section calls

variable {env : Env} {math : MathFunction → List (BitVec 64) → BitVec 64} {opts : GenerationOpts}
  {w : Writer} {c : Config}

/-- The load of a function leaves an `int`, or does not verify. -/
theorem run_printFunctionLoad (f : FunctionRef) (c : Config) :
    run env (printFunctionLoad opts f) none c = .stuck ∨
      ∃ p, run env (printFunctionLoad opts f) none c = .fall (c.push (.int p)) := by
  unfold printFunctionLoad ldcToken
  cases hldc : opts.wideLdc
  · right
    cases f.external <;> exact ⟨_, rfl⟩
  · left
    cases f.external <;> rfl

/-- Behind the load of a function nothing can be converted from `float`. -/
theorem run_functionOperand (f : FunctionRef) (c : Config) :
    run env (printFunctionLoad opts f ++ [.conv .f .d]) none c = .stuck := by
  rcases run_printFunctionLoad f c with h | ⟨p, h⟩
  · rw [run_append, h]
    rfl
  · rw [run_append_of_fall h]
    rfl

/-- With one argument the function itself is loaded, as if it were a `float`. -/
theorem runLines_unary (fn : MathFunction) (arg : Value) (callee : FunctionRef) {ls : List Line}
    {w' : Writer}
    (hprint : printMathIntrinsic opts fn [arg, .const (.function callee)] w = some (ls, w')) :
    runLines env math ls none c = .stuck := by
  have hbits : getBitWidth (Value.const (.function callee)).type false = 32 := rfl
  have hls : ls = lines (printFunctionLoad opts callee ++ [.conv .f .d]) ++
      ([.simple ("invokestatic java/lang/Math/" ++ fn.text)] ++ lines [.conv .d .f]) := by
    cases hprint
    simp [lines, hbits]
  rw [hls, runLines_append_of_stuck (run_functionOperand callee c)]

/-- With two arguments the second one is loaded first, and the function after it. -/
theorem runLines_pow {left right : Value} {callee : FunctionRef} {x : Val}
    (hx : (right.type = .float ∧ x.letter = .f) ∨ (right.type = .double ∧ x.letter = .d))
    (hright : Operand env opts w c.locals right x) (hw : w.Fresh) {ls : List Line} {w' : Writer}
    (hprint : printMathIntrinsic opts .pow [left, right, .const (.function callee)] w =
      some (ls, w')) :
    runLines env math ls none c = .stuck := by
  obtain ⟨load, w₁, hload, -, hrun⟩ := hright w hw rfl rfl
  have hfunction : printValueLoad opts (.const (.function callee)) w₁ =
      some (printFunctionLoad opts callee, w₁) := rfl
  simp only [printMathIntrinsic, printMathRest, printMathOperand, emit_bind, emit_pure, hload,
    hfunction, Option.bind_some] at hprint
  rcases hx with ⟨hty, hletter⟩ | ⟨hty, hletter⟩
  · have hls : ls = lines load ++ (lines [.conv .f .d] ++
        (lines (printFunctionLoad opts callee ++ [.conv .f .d]) ++
          ([.simple ("invokestatic java/lang/Math/" ++ MathFunction.pow.text)] ++
            lines [.conv .d .f]))) := by
      rw [hty] at hprint
      cases hprint
      simp [lines, getBitWidth]
    rw [hls, runLines_append_of_fall (hrun c rfl), runLines_code_append]
    -- whatever the conversion of the second argument delivers
    simp only [run, step, Config.push]
    cases conv env .f .d x with
    | none => rfl
    | some y => exact runLines_append_of_stuck (run_functionOperand callee _)
  · have htext : "invokestatic java/lang/Math/" ++ MathFunction.pow.text =
        (LibraryMethod.math .pow).text := rfl
    have hls : ls = lines load ++ (lines (printFunctionLoad opts callee) ++
        [.simple ("invokestatic java/lang/Math/" ++ MathFunction.pow.text)]) := by
      rw [hty] at hprint
      cases hprint
      simp [lines, getBitWidth]
    rw [hls, htext, runLines_append_of_fall (hrun c rfl)]
    rcases run_printFunctionLoad callee (c.push x) with h | ⟨p, h⟩
    · exact runLines_append_of_stuck h
    · have hmem : LibraryMethod.math .pow ∈ LibraryMethod.all := by simp [LibraryMethod.all]
      rw [runLines_append_of_fall h, runLines_simple hmem]
      cases x with
      | double b => rfl
      | _ => cases hletter

/-- A mathematical function is called with the function in place of an argument. -/
theorem runLines_math {fn : MathFunction} {args : List Value} {callee : FunctionRef} {xs : List Val}
    (hw : w.Fresh) (hargs : List.Forall₂ (Operand env opts w c.locals) args xs)
    (htyped : (IntrinsicCall.math fn args callee).Typed w c.locals xs) {ls : List Line}
    {w' : Writer}
    (hprint : printMathIntrinsic opts fn (args ++ [.const (.function callee)]) w = some (ls, w')) :
    runLines env math ls none c = .stuck := by
  have hlen := hargs.length_eq
  -- the last argument of `pow` is a floating point value of its type
  have hpow : ∀ {left right : Value} {x y : Val}, args = [left, right] → xs = [x, y] →
      (right.type = .float ∧ y.letter = .f) ∨ (right.type = .double ∧ y.letter = .d) := by
    rintro left right x y rfl hxs
    cases htyped with
    | double _ _ _ bits harity htypes =>
        have hmem : y ∈ bits.map Val.double := by simp [hxs]
        obtain ⟨b, -, rfl⟩ := List.mem_map.mp hmem
        exact .inr ⟨htypes right (by simp), rfl⟩
    | single _ _ _ bits harity htypes =>
        have hmem : y ∈ bits.map Val.float := by simp [hxs]
        obtain ⟨b, -, rfl⟩ := List.mem_map.mp hmem
        exact .inl ⟨htypes right (by simp), rfl⟩
  have harity : args.length = fn.arity := by
    cases htyped <;> simpa [hlen] using ‹_ = MathFunction.arity fn›
  have hunary : fn.arity = 1 → runLines env math ls none c = .stuck := by
    intro hone
    obtain ⟨arg, rfl⟩ := List.length_eq_one_iff.mp (harity.trans hone)
    exact runLines_unary fn arg callee hprint
  cases fn with
  | exp => exact hunary rfl
  | log => exact hunary rfl
  | log10 => exact hunary rfl
  | sqrt => exact hunary rfl
  | pow =>
      obtain ⟨left, right, rfl⟩ := List.length_eq_two.mp harity
      obtain ⟨x, y, rfl⟩ := List.length_eq_two.mp (hlen.symm.trans harity)
      simp only [List.forall₂_cons, List.Forall₂.nil, and_true] at hargs
      exact runLines_pow (hpow rfl rfl) hargs.2 hw hprint

variable (math) in
theorem callLibrary_bswap {width : IntWidth} (hwidth : width ∈ [IntWidth.w16, .w32, .w64])
    (p : BitVec width.bits) (s : List Val) :
    LibraryMethod.bswap (getTypeDescriptor (.int width) false) ∈ LibraryMethod.all ∧
      ∃ y : BitVec width.bits, ByteReverse.Reverses p y ∧
        callLibrary math (.bswap (getTypeDescriptor (.int width) false)) (represent p :: s) =
          some (represent y :: s) := by
  simp only [List.mem_cons, List.not_mem_nil, or_false] at hwidth
  rcases hwidth with rfl | rfl | rfl
  · refine ⟨by decide, _, Instruction.reverses_bswapShort p, ?_⟩
    simp [callLibrary, represent, getTypeDescriptor, getTypeID, intBitWidth, argument, swapBytes,
      result, SignExtend.setWidth_signExtend]
  · refine ⟨by decide, _, Instruction.reverses_bswapInt p, ?_⟩
    simp [callLibrary, represent, getTypeDescriptor, getTypeID, intBitWidth, argument, swapBytes,
      result]
  · refine ⟨by decide, _, Instruction.reverses_bswapLong p, ?_⟩
    simp [callLibrary, represent, getTypeDescriptor, getTypeID, intBitWidth, argument, swapBytes,
      result]

theorem smaxBy_signExtend {n p : ℕ} (h : n ≤ p) (x y : BitVec n) :
    Instruction.smaxBy p (x.signExtend p) (y.signExtend p) =
      (if y.slt x then x else y).signExtend p := by
  rw [Instruction.smaxBy_eq le_rfl]
  simp only [BitVec.slt, BitVec.toInt_signExtend_of_le h]
  split_ifs <;> rfl

variable (math) in
/-- The methods for the maximum: there is none for `boolean`. -/
theorem callLibrary_smax {width : IntWidth} (hwidth : width ≠ .w1) (x y : BitVec width.bits)
    (s : List Val) :
    LibraryMethod.smax (getTypeDescriptor (.int width) false) ∈ LibraryMethod.all ∧
      callLibrary math (.smax (getTypeDescriptor (.int width) false))
        (represent y :: represent x :: s) =
        some (represent (if y.slt x then x else y) :: s) := by
  obtain ⟨n, hpos, hle⟩ := width
  have hone : n ≠ 1 := by
    rintro rfl
    exact hwidth rfl
  have hcut : ∀ {k : ℕ} (z : BitVec k), k ≤ 32 → (z.signExtend 32).setWidth k = z := fun z hk =>
    SignExtend.setWidth_signExtend hk z
  by_cases h8 : n = 8
  · subst h8
    refine ⟨List.mem_of_elem_eq_true rfl, ?_⟩
    simp [callLibrary, represent, getTypeDescriptor, getTypeID, intBitWidth, argument, maximum,
      result, hcut, Instruction.smaxBy_eq]
  by_cases h16 : n = 16
  · subst h16
    refine ⟨List.mem_of_elem_eq_true rfl, ?_⟩
    simp [callLibrary, represent, getTypeDescriptor, getTypeID, intBitWidth, argument, maximum,
      result, hcut, Instruction.smaxBy_eq]
  by_cases h32 : n ≤ 32
  · have hd : getTypeDescriptor (.int ⟨n, hpos, hle⟩) false = .I := by
      have hbits : intBitWidth n false = 32 := by
        unfold intBitWidth
        split_ifs <;> omega
      simp [getTypeDescriptor, getTypeID, hbits]
    refine ⟨by rw [hd]; decide, ?_⟩
    simp [callLibrary, represent, hd, hone, h32, argument, maximum, result, smaxBy_signExtend h32]
  · have hd : getTypeDescriptor (.int ⟨n, hpos, hle⟩) false = .J := by
      have hbits : intBitWidth n false = 64 := by
        unfold intBitWidth
        split_ifs <;> omega
      simp [getTypeDescriptor, getTypeID, hbits]
    refine ⟨by rw [hd]; decide, ?_⟩
    simp [callLibrary, represent, hd, hone, h32, argument, maximum, result, smaxBy_signExtend hle]

/-- The code leaves the result of the call on its arguments. -/
def Applied (env : Env) (math : MathFunction → List (BitVec 64) → BitVec 64) (opts : GenerationOpts)
    (vaArgNum : ℕ) (w : Writer) (c : Config) (call : IntrinsicCall) (xs : List Val) : Prop :=
  ∃ ls w' z, printIntrinsicCall opts vaArgNum call.inst w = some (ls, w') ∧
    call.HasResult env math xs z ∧ runLines env math ls none c = .fall (c.push z)

theorem runLines_bswap {width : IntWidth} (hwidth : width ∈ [IntWidth.w16, .w32, .w64])
    {parameter : Local} (hty : parameter.ty = .int width) {n : ℕ} (hhas : w.Has parameter n)
    {p : BitVec width.bits} (hp : c.locals n = some (represent p)) (vaArgNum : ℕ) (arg : Value) :
    ∃ ls y, printIntrinsicCall opts vaArgNum (IntrinsicCall.bswap width arg parameter).inst w =
        some (ls, w) ∧
      ByteReverse.Reverses p y ∧ runLines env math ls none c = .fall (c.push (represent y)) := by
  have hletter : (represent p).letter = parameter.ty.letter := by
    rw [hty]
    exact letter_represent
      (by simp only [List.mem_cons, List.not_mem_nil, or_false] at hwidth ⊢; tauto) p
  obtain ⟨hmem, y, hy, hcall⟩ := callLibrary_bswap math hwidth p c.stack
  refine ⟨lines [.load (getTypePrefix parameter.ty true) (localForm opts n) n] ++
    [.simple (LibraryMethod.bswap (getTypeDescriptor (.int width) false)).text], y, ?_, hy, ?_⟩
  · simp only [IntrinsicCall.inst, printIntrinsicCall, emit_bind, emit_pure, 
      printValueLoad_var hhas,
      Option.bind_some]
    rfl
  · rw [runLines_append_of_fall (run_load hp hletter _), runLines_simple hmem]
    simp only [Config.push, hcall, runLines]

theorem applied_bswap_iff {vaArgNum : ℕ} {width : IntWidth}
    (hwidth : width ∈ [IntWidth.w16, .w32, .w64]) (arg : Value) {parameter : Local}
    (hty : parameter.ty = .int width) {n : ℕ} (hhas : w.Has parameter n) {p x : BitVec width.bits}
    (hp : c.locals n = some (represent p)) :
    Applied env math opts vaArgNum w c (.bswap width arg parameter) [represent x] ↔ p = x := by
  obtain ⟨ls, y, hprint, hy, hrun⟩ := runLines_bswap hwidth hty hhas hp vaArgNum arg
  have hdvd : 8 ∣ width.bits := by
    simp only [List.mem_cons, List.not_mem_nil, or_false] at hwidth
    rcases hwidth with rfl | rfl | rfl <;> decide
  constructor
  · rintro ⟨ls', w', z, hprint', hresult, hrun'⟩
    cases hprint.symm.trans hprint'
    generalize hxs : [represent x] = xs at hresult
    cases hresult with
    | @bswap _ _ _ x' y' h =>
        have hpushed : represent y = represent y' := by
          rw [hrun] at hrun'
          simpa [Config.push] using hrun'
        obtain rfl := represent_injective width.le hpushed
        obtain rfl : x = x' := represent_injective width.le (by simpa using hxs)
        exact hy.injective hdvd h
  · rintro rfl
    exact ⟨ls, w, _, hprint, .bswap arg parameter hy, hrun⟩

variable (math) in
theorem printIntrinsicCall_smax {left right : Value} {width : IntWidth}
    (hright : right.type = .int width)
    {x y : Val} (hw : w.Fresh) (hx : Operand env opts w c.locals left x)
    (hy : Operand env opts w c.locals right y) (vaArgNum : ℕ) :
    ∃ ls w',
      printIntrinsicCall opts vaArgNum (IntrinsicCall.smax left right).inst w = some (ls, w') ∧
      runLines env math ls none c = runLines env math
        [.simple (LibraryMethod.smax (getTypeDescriptor (.int width) false)).text] none
        ((c.push x).push y) := by
  obtain ⟨l, w₁, hleft, hemit, hrunl⟩ := hx w hw rfl rfl
  obtain ⟨r, w₂, hload, -, hrunr⟩ := hy w₁ (hemit.fresh hw) hemit.localVars hemit.basicblockMap
  refine ⟨lines (l ++ r) ++
    [.simple (LibraryMethod.smax (getTypeDescriptor (.int width) false)).text], w₂, ?_, ?_⟩
  · simp only [IntrinsicCall.inst, printIntrinsicCall, emit_bind, emit_pure, hleft, hload, hright,
      Option.bind_some]
    rfl
  · have hboth : run env (l ++ r) none c = .fall ((c.push x).push y) := by
      rw [run_append_of_fall (hrunl c rfl)]
      exact hrunr _ rfl
    exact runLines_append_of_fall hboth

theorem applied_smax_iff {vaArgNum : ℕ} {left right : Value} {width : IntWidth}
    (hright : right.type = .int width) {x y : BitVec width.bits}
    (hw : w.Fresh) (hx : Operand env opts w c.locals left (represent x))
    (hy : Operand env opts w c.locals right (represent y)) :
    Applied env math opts vaArgNum w c (.smax left right) [represent x, represent y] ↔
      width ≠ .w1 := by
  obtain ⟨ls, w', hprint, hrun⟩ := printIntrinsicCall_smax math hright hw hx hy vaArgNum
  constructor
  · rintro ⟨ls', w'', z, hprint', -, hfall⟩ rfl
    cases hprint.symm.trans hprint'
    have hnone : LibraryMethod.named
        (LibraryMethod.smax (getTypeDescriptor (.int .w1) false)).text = none := by decide +kernel
    rw [hrun, runLines, hnone] at hfall
    cases hfall
  · intro hwidth
    obtain ⟨hmem, hcall⟩ := callLibrary_smax math hwidth x y c.stack
    refine ⟨ls, w', _, hprint, .smax left right x y, ?_⟩
    rw [hrun, runLines_simple hmem]
    simp only [Config.push, hcall, runLines]

/-- The calls that are applied to their arguments: the maximum except for `i1`, the byte swap if
the local of the parameter happens to hold the argument, and no mathematical function. -/
theorem applied_iff {vaArgNum : ℕ} {call : IntrinsicCall} {xs : List Val} (hw : w.Fresh)
    (hargs : List.Forall₂ (Operand env opts w c.locals) call.args xs)
    (htyped : call.Typed w c.locals xs) :
    Applied env math opts vaArgNum w c call xs ↔ call.LoadsArgs w c.locals xs := by
  cases call with
  | math fn args callee =>
      refine iff_of_false ?_ id
      rintro ⟨ls, w', z, hprint, -, hrun⟩
      rw [runLines_math hw hargs htyped hprint] at hrun
      cases hrun
  | bswap width arg parameter =>
      cases htyped with
      | bswap hwidth _ _ hty n hhas p hp x =>
          rw [applied_bswap_iff hwidth arg hty hhas hp]
          constructor
          · rintro rfl m hm
            obtain rfl : m = n := Option.some.inj (hm.symm.trans hhas)
            exact hp
          · intro h
            exact represent_injective width.le (Option.some.inj (hp.symm.trans (h n hhas)))
  | smax left right =>
      cases htyped with
      | @smax _ _ width hleft hright x y =>
          simp only [IntrinsicCall.args, List.forall₂_cons, List.Forall₂.nil, and_true] at hargs
          rw [applied_smax_iff hright hw hargs.1 hargs.2, IntrinsicCall.LoadsArgs, hleft]
          simp

end calls

/-- Two locals with numbers of 32 bits. -/
def twoInts (a b : BitVec 32) : Config :=
  ⟨fun n => if n = 0 then some (.int a) else some (.int b), [], Memory.initial⟩

theorem operand_twoInts (a b : BitVec 32) :
    Operand .plain ⟨false, false, false, false⟩ ⟨[(0, 0), (1, 1)], 2, [], 0, 0, none⟩
        (twoInts a b).locals (.var ⟨0, .int .w32⟩) (represent a) ∧
      Operand .plain ⟨false, false, false, false⟩ ⟨[(0, 0), (1, 1)], 2, [], 0, 0, none⟩
        (twoInts a b).locals (.var ⟨1, .int .w32⟩) (represent b) := by
  have hfirst : Writer.Has ⟨[(0, 0), (1, 1)], 2, [], 0, 0, none⟩ ⟨0, .int .w32⟩ 0 := rfl
  have hsecond : Writer.Has ⟨[(0, 0), (1, 1)], 2, [], 0, 0, none⟩ ⟨1, .int .w32⟩ 1 := rfl
  exact ⟨operand_var hfirst (by simp [twoInts, represent]) rfl,
    operand_var hsecond (by simp [twoInts, represent]) rfl⟩

theorem fresh_twoInts : Writer.Fresh ⟨[(0, 0), (1, 1)], 2, [], 0, 0, none⟩ := by
  intro l hl
  cases hl

/-- `llvm.smax.i32` on two locals. -/
theorem applied_smax_locals :
    Applied .plain (fun _ _ => 0) ⟨false, false, false, false⟩ 2
      ⟨[(0, 0), (1, 1)], 2, [], 0, 0, none⟩ (twoInts 3 (-5))
      (.smax (.var ⟨0, .int .w32⟩) (.var ⟨1, .int .w32⟩))
      [represent (3 : BitVec 32), represent (-5 : BitVec 32)] := by
  obtain ⟨hfirst, hsecond⟩ := operand_twoInts 3 (-5)
  refine (applied_iff fresh_twoInts (.cons hfirst (.cons hsecond .nil))
    (@IntrinsicCall.Typed.smax _ _ _ _ .w32 rfl rfl 3 (-5))).mpr ?_
  simp [IntrinsicCall.LoadsArgs, Value.type]

/-- `llvm.bswap.i32` of 1, with the zero of the prologue in the local of the parameter. -/
theorem not_applied_bswap :
    ¬ ∀ (env : Env) (math : MathFunction → List (BitVec 64) → BitVec 64) (opts : GenerationOpts)
        (vaArgNum : ℕ) (w : Writer) (c : Config) (call : IntrinsicCall) (xs : List Val), w.Fresh →
      List.Forall₂ (Operand env opts w c.locals) call.args xs → call.Typed w c.locals xs →
        Applied env math opts vaArgNum w c call xs := by
  intro h
  obtain ⟨-, hsecond⟩ := operand_twoInts 0 1
  have hhas : Writer.Has ⟨[(0, 0), (1, 1)], 2, [], 0, 0, none⟩ ⟨0, .int .w32⟩ 0 := rfl
  have happlied := h .plain (fun _ _ => 0) ⟨false, false, false, false⟩ 2
    ⟨[(0, 0), (1, 1)], 2, [], 0, 0, none⟩ (twoInts 0 1)
    (.bswap .w32 (.var ⟨1, .int .w32⟩) ⟨0, .int .w32⟩) [represent (1 : BitVec 32)] fresh_twoInts
    (.cons hsecond .nil) (.bswap (by simp) _ _ rfl 0 hhas (0 : BitVec 32) rfl 1)
  have hzero := (applied_bswap_iff (by simp) _ rfl hhas (p := (0 : BitVec 32)) rfl).mp happlied
  cases hzero

end Llxvm.Backend
