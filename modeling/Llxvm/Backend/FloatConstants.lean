import Llxvm.Backend.Writer
import Llxvm.Lib.ReadBack

/-!
# Floating point constants

The decimal numbers that `printConstLoad(float)` and `printConstLoad(double)` print, and the
constants that survive: those that some number of seven digits stands for.
-/

namespace Llxvm.Backend

open Llxvm.Jvm FloatFormat

/-- `ftostr`: the text of `sprintf("%20.6e", V)` after its blanks, as a decimal number. -/
def ftostr (v : ℚ) : Decimal := Decimal.format 6 v

section value

variable (F : FloatFormat) {w : ℕ} (x : BitVec w)

/-- The bits of a constant without its sign. -/
def pattern : ℕ := x.toNat % 2 ^ (F.exponent + F.mantissa)

def floatValue : ℚ := F.signed x.msb (pattern F x)

/-- Neither a zero nor an infinity nor a NaN. -/
def FiniteNonzero : Prop := pattern F x ≠ 0 ∧ pattern F x < F.infinity

instance : Decidable (FiniteNonzero F x) := inferInstanceAs (Decidable (_ ∧ _))

/-- The constant is the value of its format that is nearest to `q`. -/
def NearestTo (q : ℚ) : Prop := F.IsNearest q x.msb (pattern F x)

end value

/-- The number that is printed for the constant of a literal. -/
def Literal.decimal : Literal → Option Decimal
  | .float bits => some (ftostr (floatValue single bits))
  | .double bits => some (ftostr (floatValue double bits))
  | _ => none

/-- The number that the text of a constant load denotes. -/
def denotedRat : Code → Option ℚ
  | [.const _ n] => some n
  | [.ldc text] => (Literal.decimal text).map Decimal.value
  | [.ldc2_w text] => (Literal.decimal text).map Decimal.value
  | _ => none

/-- What is printed denotes a number whose nearest value is the constant. -/
def Lossless (F : FloatFormat) {w : ℕ} (x : BitVec w) (code : Code) : Prop :=
  ∃ q, denotedRat code = some q ∧ NearestTo F x q

/-- Some number of at most seven significant digits stands for the constant. -/
def FewDigits (F : FloatFormat) {w : ℕ} (x : BitVec w) : Prop :=
  ∃ q, Decimal.Short 6 q ∧ NearestTo F x q

section lossless

variable {F : FloatFormat} {w : ℕ} {x : BitVec w} {code : Code}

theorem lossless_literal_iff (hx : FiniteNonzero F x) (hsep : F.Separated 6 (pattern F x))
    (hcode : denotedRat code = some (ftostr (floatValue F x)).value) :
    Lossless F x code ↔ FewDigits F x := by
  constructor
  · rintro ⟨q, hq, hnear⟩
    obtain rfl : (ftostr (floatValue F x)).value = q := Option.some.inj (hcode.symm.trans hq)
    exact ⟨_, Decimal.short_format _, hnear⟩
  · rintro ⟨q, hshort, hnear⟩
    exact ⟨_, hcode, isNearest_format hx.1 hsep hshort hnear⟩

/-- A constant that is printed as a small integer. -/
theorem lossless_const_iff (hx : FiniteNonzero F x) {n : ℤ} (hn : |n| < 10 ^ 7)
    (hcode : denotedRat code = some (n : ℚ)) (hvalue : floatValue F x = n) :
    Lossless F x code ↔ FewDigits F x := by
  have hnear : NearestTo F x n := by
    rw [← hvalue]
    exact F.isNearest_self _ hx.2
  exact ⟨fun _ => ⟨n, ⟨n, 0, hn, by simp⟩, hnear⟩, fun _ => ⟨n, hcode, hnear⟩⟩

end lossless

theorem pattern_single (f : BitVec 32) : (f &&& 0x7fffffff#32).toNat = pattern single f := by
  rw [BitVec.toNat_and, BitVec.toNat_ofNat]
  exact Nat.and_two_pow_sub_one_eq_mod f.toNat 31

theorem pattern_double (d : BitVec 64) :
    (d &&& 0x7fffffffffffffff#64).toNat = pattern double d := by
  rw [BitVec.toNat_and, BitVec.toNat_ofNat]
  exact Nat.and_two_pow_sub_one_eq_mod d.toNat 63

theorem pattern_ne_zero_single {f : BitVec 32} (hf : FiniteNonzero single f) :
    f &&& 0x7fffffff#32 ≠ 0#32 := by
  intro h
  apply hf.1
  rw [← pattern_single, h]
  rfl

theorem pattern_ne_zero_double {d : BitVec 64} (hd : FiniteNonzero double d) :
    d &&& 0x7fffffffffffffff#64 ≠ 0#64 := by
  intro h
  apply hd.1
  rw [← pattern_double, h]
  rfl

theorem denotedRat_ldcToken (opts : GenerationOpts) (text : Literal) :
    denotedRat [ldcToken opts text] = (Literal.decimal text).map Decimal.value := by
  unfold ldcToken
  split_ifs <;> rfl

theorem printConstLoadFloat_lossless_iff (opts : GenerationOpts) {f : BitVec 32}
    (hf : FiniteNonzero single f) :
    Lossless single f (printConstLoadFloat opts f) ↔ FewDigits single f := by
  have hnan : ¬ 0x7f800000 < (f &&& 0x7fffffff#32).toNat := by
    rw [pattern_single]
    exact not_lt.mpr hf.2.le
  unfold printConstLoadFloat
  rw [if_neg (pattern_ne_zero_single hf)]
  split_ifs with hone htwo hinf hninf
  · subst hone
    exact lossless_const_iff hf (n := 1) (by decide) rfl (by decide +kernel)
  · subst htwo
    exact lossless_const_iff hf (n := 2) (by decide) rfl (by decide +kernel)
  · subst hinf
    exact absurd hf (by decide)
  · subst hninf
    exact absurd hf (by decide)
  · exact lossless_literal_iff hf (separated_single hf.1 hf.2) (denotedRat_ldcToken opts (.float f))

theorem printConstLoadDouble_lossless_iff {d : BitVec 64} (hd : FiniteNonzero double d) :
    Lossless double d (printConstLoadDouble d) ↔ FewDigits double d := by
  have hnan : ¬ 0x7ff0000000000000 < (d &&& 0x7fffffffffffffff#64).toNat := by
    rw [pattern_double]
    exact not_lt.mpr hd.2.le
  unfold printConstLoadDouble
  rw [if_neg (pattern_ne_zero_double hd)]
  split_ifs with hone hinf hninf
  · subst hone
    exact lossless_const_iff hd (n := 1) (by decide) rfl (by decide +kernel)
  · subst hinf
    exact absurd hd (by decide)
  · subst hninf
    exact absurd hd (by decide)
  · exact lossless_literal_iff hd (separated_of_le hd.1 (by decide)) rfl

/-- A constant is emitted without loss exactly if it is the nearest value of some number with
at most seven significant digits. -/
theorem printConstLoad_lossless_iff (opts : GenerationOpts) :
    (∀ f : BitVec 32, FiniteNonzero single f →
      (Lossless single f (printConstLoadFloat opts f) ↔ FewDigits single f)) ∧
    ∀ d : BitVec 64, FiniteNonzero double d →
      (Lossless double d (printConstLoadDouble d) ↔ FewDigits double d) :=
  ⟨fun _ hf => printConstLoadFloat_lossless_iff opts hf,
    fun _ hd => printConstLoadDouble_lossless_iff hd⟩

theorem printConstLoad_lossless_tenth :
    Lossless double 0x3fb999999999999a#64 (printConstLoadDouble 0x3fb999999999999a#64) := by
  have hnear : NearestTo double 0x3fb999999999999a#64 (1 * 10 ^ (-1 : ℤ)) := by
    refine (double.isNearest_iff (by decide)).mpr ⟨by decide, by decide +kernel, ?_, ?_⟩
    · exact fun _ => .inl (by decide +kernel)
    · exact .inl (by decide +kernel)
  exact ((printConstLoad_lossless_iff ⟨false, false, false, false⟩).2 0x3fb999999999999a#64
    (by decide)).mpr ⟨_, ⟨1, -1, by decide, by norm_num⟩, hnear⟩

/-- A third, and the next double: both are printed as `3.333333e-01`. -/
theorem not_lossless_third :
    ¬ Lossless double 0x3fd5555555555555#64 (printConstLoadDouble 0x3fd5555555555555#64) ∧
      ftostr (floatValue double 0x3fd5555555555555#64) =
        ftostr (floatValue double 0x3fd5555555555556#64) := by
  constructor
  · rintro ⟨q, hq, -, hnear⟩
    have hvalue : denotedRat (printConstLoadDouble 0x3fd5555555555555#64) =
        some (3333333 / 10000000) := by decide +kernel
    obtain rfl : 3333333 / 10000000 = q := Option.some.inj (hvalue.symm.trans hq)
    have hless := hnear false (pattern double 0x3fd5555555555554#64) (by decide +kernel)
      (by decide +kernel)
    revert hless
    decide +kernel
  · decide +kernel

end Llxvm.Backend
