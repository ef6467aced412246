import Mathlib.Data.List.Basic
import Mathlib.Tactic.Common

/-!
# Little-endian byte strings

A word is cut into its bytes, least significant first, and put together again.
-/

namespace LittleEndian

/-- The `n` low bytes of a word, least significant first. -/
def leBytes (n : ℕ) {w : ℕ} (v : BitVec w) : List (BitVec 8) :=
  (List.range n).map fun i => v.extractLsb' (8 * i) 8

/-- The word whose bytes, least significant first, are the given ones. -/
def ofLeBytes (w : ℕ) : List (BitVec 8) → BitVec w
  | [] => 0#w
  | b :: bs => b.setWidth w ||| (ofLeBytes w bs <<< 8)

@[simp] theorem length_leBytes (n : ℕ) {w : ℕ} (v : BitVec w) : (leBytes n v).length = n := by
  simp [leBytes]

@[simp] theorem getElem?_leBytes {n i w : ℕ} (v : BitVec w) (hi : i < n) :
    (leBytes n v)[i]? = some (v.extractLsb' (8 * i) 8) := by
  simp [leBytes, hi]

theorem getLsbD_ofLeBytes (w : ℕ) (bs : List (BitVec 8)) (i : ℕ) :
    (ofLeBytes w bs).getLsbD i = (decide (i < w) && (bs.getD (i / 8) 0#8).getLsbD (i % 8)) := by
  induction bs generalizing i with
  | nil => simp [ofLeBytes]
  | cons b bs ih =>
      rw [ofLeBytes, BitVec.getLsbD_or, BitVec.getLsbD_setWidth, BitVec.getLsbD_shiftLeft]
      by_cases h8 : i < 8
      · simp [h8, Nat.div_eq_of_lt h8, Nat.mod_eq_of_lt h8]
      · have hdiv : i / 8 = (i - 8) / 8 + 1 := by omega
        have hmod : (i - 8) % 8 = i % 8 := by omega
        rw [BitVec.getLsbD_of_ge b i (by omega), ih, hdiv, hmod]
        by_cases hw : i < w
        · simp [h8, hw, show i - 8 < w by omega]
        · simp [hw]

theorem ofLeBytes_leBytes {n w : ℕ} (h : w ≤ 8 * n) (v : BitVec w) :
    ofLeBytes w (leBytes n v) = v := by
  apply BitVec.eq_of_getLsbD_eq
  intro i hi
  have hn : i / 8 < n := by omega
  rw [getLsbD_ofLeBytes, List.getD_eq_getElem?_getD, getElem?_leBytes v hn]
  have hrec : 8 * (i / 8) + i % 8 = i := by omega
  simp [hi, Nat.mod_lt i (by decide : 8 > 0), hrec]

theorem leBytes_ofLeBytes {n w : ℕ} (h : 8 * n ≤ w) {bs : List (BitVec 8)} (hbs : bs.length = n) :
    leBytes n (ofLeBytes w bs) = bs := by
  apply List.ext_getElem?
  intro i
  by_cases hi : i < n
  · rw [getElem?_leBytes _ hi, List.getElem?_eq_getElem (by omega)]
    congr 1
    apply BitVec.eq_of_getLsbD_eq
    intro j hj
    have hdiv : (8 * i + j) / 8 = i := by omega
    have hmod : (8 * i + j) % 8 = j := by omega
    rw [BitVec.getLsbD_extractLsb', getLsbD_ofLeBytes, hdiv, hmod, List.getD_eq_getElem?_getD,
      List.getElem?_eq_getElem (by omega)]
    simp [hj, show 8 * i + j < w by omega]
  · rw [List.getElem?_eq_none (by simp; omega), List.getElem?_eq_none (by omega)]

theorem leBytes_injective {n w : ℕ} (h : w ≤ 8 * n) {u v : BitVec w}
    (huv : leBytes n u = leBytes n v) : u = v := by
  rw [← ofLeBytes_leBytes h u, huv, ofLeBytes_leBytes h]

end LittleEndian
