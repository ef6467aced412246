import Mathlib.Algebra.Group.Nat.Defs
import Mathlib.Data.Nat.Basic
import Mathlib.Data.Int.Basic

/-!
# Arithmetic on sign extended words

A narrow integer kept sign extended in a wider register: which operations on the register
have the narrow result in their low bits.
-/

namespace SignExtend

variable {n p : ℕ}

/-- Cutting the register to any width leaves a sign extension to that width. -/
theorem setWidth_signExtend_cut {m : ℕ} (h : m ≤ p) (x : BitVec n) :
    (x.signExtend p).setWidth m = x.signExtend m := by
  apply BitVec.eq_of_getLsbD_eq
  intro i hi
  rw [BitVec.getLsbD_setWidth, BitVec.getLsbD_signExtend, BitVec.getLsbD_signExtend]
  simp [hi, show i < p by omega]

theorem setWidth_signExtend (h : n ≤ p) (x : BitVec n) : (x.signExtend p).setWidth n = x := by
  rw [setWidth_signExtend_cut h, BitVec.signExtend_eq]

theorem signExtend_injective (h : n ≤ p) {x y : BitVec n} (hxy : x.signExtend p = y.signExtend p) :
    x = y := by
  rw [← setWidth_signExtend h x, hxy, setWidth_signExtend h]

/-- The two extensions differ on negative values. -/
theorem signExtend_eq_setWidth_iff (h : n < p) (x : BitVec n) :
    x.signExtend p = x.setWidth p ↔ x.msb = false := by
  constructor
  · intro heq
    have hbit := congrArg (BitVec.getLsbD · n) heq
    simp only [BitVec.getLsbD_signExtend, BitVec.getLsbD_setWidth] at hbit
    simpa [h] using hbit
  · exact BitVec.signExtend_eq_setWidth_of_msb_false

theorem signExtend_signExtend {m : ℕ} (h : n ≤ m) (hp : m ≤ p) (x : BitVec n) :
    (x.signExtend m).signExtend p = x.signExtend p := by
  apply BitVec.eq_of_toInt_eq
  rw [BitVec.toInt_signExtend_of_le hp, BitVec.toInt_signExtend_of_le h,
    BitVec.toInt_signExtend_of_le (Nat.le_trans h hp)]

theorem signExtend_zero : (0#n).signExtend p = 0#p := by
  apply BitVec.eq_of_getLsbD_eq
  intro i hi
  simp [BitVec.getLsbD_signExtend]

theorem signExtend_eq_zero_iff (h : n ≤ p) (x : BitVec n) : x.signExtend p = 0#p ↔ x = 0#n := by
  constructor
  · intro hx
    apply signExtend_injective h
    rw [hx, signExtend_zero]
  · rintro rfl
    exact signExtend_zero

/-- A sign extension that is cut off again reads back through `toInt`. -/
theorem setWidth_eq_of_toInt {z : BitVec n} {r : BitVec p} (h : n ≤ p) {k : ℤ}
    (hr : r.toInt = k.bmod (2 ^ p)) (hz : z.toInt = k.bmod (2 ^ n)) : r.setWidth n = z := by
  apply BitVec.eq_of_toInt_eq
  rw [BitVec.toInt_setWidth, hz]
  have hmod : ((r.toNat : ℤ)).bmod (2 ^ n) = r.toInt.bmod (2 ^ n) := by
    rw [BitVec.toInt_eq_toNat_bmod, Int.bmod_bmod_of_dvd (Nat.pow_dvd_pow 2 h)]
  rw [hmod, hr, Int.bmod_bmod_of_dvd (Nat.pow_dvd_pow 2 h)]

section operations

variable (h : n ≤ p) (x y : BitVec n)

include h

theorem setWidth_add : (x.signExtend p + y.signExtend p).setWidth n = x + y := by
  rw [BitVec.setWidth_add _ _ h, setWidth_signExtend h, setWidth_signExtend h]

theorem setWidth_mul : (x.signExtend p * y.signExtend p).setWidth n = x * y := by
  rw [BitVec.setWidth_mul _ _ h, setWidth_signExtend h, setWidth_signExtend h]

theorem setWidth_sub : (x.signExtend p - y.signExtend p).setWidth n = x - y := by
  apply setWidth_eq_of_toInt h BitVec.toInt_sub
  rw [BitVec.toInt_signExtend_of_le h, BitVec.toInt_signExtend_of_le h]
  exact BitVec.toInt_sub

theorem setWidth_and : (x.signExtend p &&& y.signExtend p).setWidth n = x &&& y := by
  rw [BitVec.setWidth_and, setWidth_signExtend h, setWidth_signExtend h]

theorem setWidth_or : (x.signExtend p ||| y.signExtend p).setWidth n = x ||| y := by
  rw [BitVec.setWidth_or, setWidth_signExtend h, setWidth_signExtend h]

theorem setWidth_xor : (x.signExtend p ^^^ y.signExtend p).setWidth n = x ^^^ y := by
  rw [BitVec.setWidth_xor, setWidth_signExtend h, setWidth_signExtend h]

theorem setWidth_sdiv : ((x.signExtend p).sdiv (y.signExtend p)).setWidth n = x.sdiv y := by
  apply setWidth_eq_of_toInt h (BitVec.toInt_sdiv _ _)
  rw [BitVec.toInt_signExtend_of_le h, BitVec.toInt_signExtend_of_le h]
  exact BitVec.toInt_sdiv x y

theorem setWidth_srem : ((x.signExtend p).srem (y.signExtend p)).setWidth n = x.srem y := by
  have hr := BitVec.toInt_srem (x.signExtend p) (y.signExtend p)
  rw [BitVec.toInt_signExtend_of_le h, BitVec.toInt_signExtend_of_le h,
    ← BitVec.toInt_srem] at hr
  apply setWidth_eq_of_toInt h (k := (x.srem y).toInt)
  · rw [← hr, BitVec.toInt_bmod_cancel]
  · rw [BitVec.toInt_bmod_cancel]

theorem setWidth_shiftLeft (s : ℕ) : (x.signExtend p <<< s).setWidth n = x <<< s := by
  apply BitVec.eq_of_getLsbD_eq
  intro i hi
  rw [BitVec.getLsbD_setWidth, BitVec.getLsbD_shiftLeft, BitVec.getLsbD_shiftLeft,
    BitVec.getLsbD_signExtend]
  simp [hi, show i < p by omega, show i - s < p by omega, show i - s < n by omega]

theorem setWidth_sshiftRight (s : ℕ) :
    ((x.signExtend p).sshiftRight s).setWidth n = x.sshiftRight s := by
  have hr : ((x.signExtend p).sshiftRight s).toInt = (x.sshiftRight s).toInt := by
    rw [BitVec.toInt_sshiftRight, BitVec.toInt_sshiftRight, BitVec.toInt_signExtend_of_le h]
  apply setWidth_eq_of_toInt h (k := (x.sshiftRight s).toInt)
  · rw [← hr, BitVec.toInt_bmod_cancel]
  · rw [BitVec.toInt_bmod_cancel]

omit h in
/-- A logical right shift moves the sign bits of the register into the result. -/
theorem setWidth_ushiftRight_iff {s : ℕ} (hs : s < n) (hp : n + s ≤ p) :
    ((x.signExtend p) >>> s).setWidth n = x >>> s ↔ ¬ (x.msb = true ∧ s ≠ 0) := by
  constructor
  · rintro heq ⟨hmsb, hpos⟩
    have hbit := congrArg (BitVec.getLsbD · (n - 1)) heq
    simp only [BitVec.getLsbD_setWidth, BitVec.getLsbD_ushiftRight,
      BitVec.getLsbD_signExtend] at hbit
    rw [BitVec.getLsbD_of_ge x _ (by omega)] at hbit
    simp [show n - 1 < n by omega, show s + (n - 1) < p by omega,
      show ¬ s + (n - 1) < n by omega, hmsb] at hbit
  · intro hno
    apply BitVec.eq_of_getLsbD_eq
    intro i hi
    rw [BitVec.getLsbD_setWidth, BitVec.getLsbD_ushiftRight, BitVec.getLsbD_ushiftRight,
      BitVec.getLsbD_signExtend]
    by_cases hin : s + i < n
    · simp [hi, hin, show s + i < p by omega]
    · have hmsb : x.msb = false := by
        by_contra hne
        exact hno ⟨by simpa using hne, by omega⟩
      rw [BitVec.getLsbD_of_ge x _ (by omega)]
      simp [hin, hmsb]

end operations

end SignExtend
