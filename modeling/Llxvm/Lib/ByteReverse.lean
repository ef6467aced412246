import Mathlib.Data.Nat.Basic

/-!
# Reversing the bytes of a word

The relation between a word and the one with its bytes in reverse order, and the idiom that
takes a word apart into bytes and puts them together elsewhere.
-/

namespace ByteReverse

variable {w : ℕ}

/-- The bytes of `y` are those of `x` in reverse order. -/
def Reverses (x y : BitVec w) : Prop :=
  ∀ i < w / 8, y.extractLsb' (8 * i) 8 = x.extractLsb' (8 * (w / 8 - 1 - i)) 8

theorem Reverses.symm {x y : BitVec w} (h : Reverses x y) : Reverses y x := by
  intro i hi
  rw [h _ (by omega)]
  congr 2
  omega

theorem eq_of_bytes_eq (hw : 8 ∣ w) {x y : BitVec w}
    (h : ∀ i < w / 8, x.extractLsb' (8 * i) 8 = y.extractLsb' (8 * i) 8) : x = y := by
  apply BitVec.eq_of_getLsbD_eq
  intro b hb
  have hbit := congrArg (·.getLsbD (b % 8)) (h (b / 8) (by omega))
  have hmod : b % 8 < 8 := Nat.mod_lt _ (by decide)
  simpa only [BitVec.getLsbD_extractLsb', hmod, decide_true, Bool.true_and, Nat.div_add_mod] using
    hbit

theorem Reverses.unique (hw : 8 ∣ w) {x y z : BitVec w} (hy : Reverses x y) (hz : Reverses x z) :
    y = z :=
  eq_of_bytes_eq hw fun i hi => (hy i hi).trans (hz i hi).symm

theorem Reverses.injective (hw : 8 ∣ w) {x y z : BitVec w} (hx : Reverses x z) (hy : Reverses y z) :
    x = y :=
  hx.symm.unique hw hy.symm

/-- The byte `k` of a word, shifted to the place of the byte `m`. -/
def moveByte (x : BitVec w) (k m : ℕ) : BitVec w := ((x >>> (8 * k)) &&& 0xff) <<< (8 * m)

theorem extractLsb'_moveByte (x : BitVec w) {k m : ℕ} (hm : 8 * m + 8 ≤ w) {i : ℕ}
    (hi : i < w / 8) :
    (moveByte x k m).extractLsb' (8 * i) 8 = if i = m then x.extractLsb' (8 * k) 8 else 0#8 := by
  have hmask : ∀ n < w, (0xff : BitVec w).getLsbD n = decide (n < 8) := by
    intro n hn
    have h255 : (0xff : BitVec w) = BitVec.ofNat w (2 ^ 8 - 1) := rfl
    rw [h255, BitVec.getLsbD_ofNat, Nat.testBit_two_pow_sub_one]
    simp [hn]
  apply BitVec.eq_of_getLsbD_eq
  intro j hj
  simp only [moveByte, BitVec.getLsbD_extractLsb', hj, decide_true, Bool.true_and,
    BitVec.getLsbD_shiftLeft, BitVec.getLsbD_and, BitVec.getLsbD_ushiftRight]
  rw [hmask _ (by omega)]
  split_ifs with him
  · subst him
    have hlt : 8 * i + j < w := by omega
    have hsub : 8 * i + j - 8 * i = j := by omega
    simp [hlt, hsub, hj]
  · have hout : 8 * i + j < 8 * m ∨ ¬ 8 * i + j - 8 * m < 8 := by omega
    rcases hout with hout | hout <;> simp [hout]

end ByteReverse
