import Mathlib.Data.Nat.Basic
import Mathlib.Algebra.Order.Floor.Defs
import Mathlib.Tactic.Ring
import Mathlib.Tactic.Linarith
import Mathlib.Algebra.Ring.Parity

/-!
# Rounding up to an alignment

The least multiple of an alignment at or above a number, and the two masking
idioms by which machine code computes roundings to a power of two.
-/

namespace Align

/-- The least multiple of `a` that is not below `n`. -/
def alignUp (n a : ℕ) : ℕ := n + (a - n % a) % a

theorem le_alignUp (n a : ℕ) : n ≤ alignUp n a := Nat.le_add_right _ _

theorem dvd_alignUp (n : ℕ) {a : ℕ} (ha : 0 < a) : a ∣ alignUp n a := by
  unfold alignUp
  by_cases hz : n % a = 0
  · simpa [hz] using Nat.dvd_of_mod_eq_zero hz
  · have hr := Nat.mod_lt n ha
    rw [Nat.mod_eq_of_lt (by omega)]
    refine ⟨n / a + 1, ?_⟩
    have := Nat.div_add_mod n a
    rw [Nat.mul_add, Nat.mul_one]
    omega

theorem alignUp_lt (n : ℕ) {a : ℕ} (ha : 0 < a) : alignUp n a < n + a := by
  have := Nat.mod_lt (a - n % a) ha
  unfold alignUp
  omega

theorem alignUp_eq_self {n a : ℕ} (h : a ∣ n) : alignUp n a = n := by
  simp [alignUp, Nat.mod_eq_zero_of_dvd h]

theorem alignUp_eq_self_iff {n a : ℕ} (ha : 0 < a) : alignUp n a = n ↔ a ∣ n :=
  ⟨fun h => h ▸ dvd_alignUp n ha, alignUp_eq_self⟩

/-- Two different multiples of `a` are at least `a` apart. -/
theorem add_le_of_dvd {m n a : ℕ} (hm : a ∣ m) (hn : a ∣ n) (h : m < n) : m + a ≤ n := by
  have hd : a ∣ n - m := Nat.dvd_sub hn hm
  have := Nat.le_of_dvd (by omega) hd
  omega

/-- The rounding is the least one: no multiple of `a` lies in between. -/
theorem alignUp_le {n a q : ℕ} (ha : 0 < a) (hn : n ≤ q) (hq : a ∣ q) : alignUp n a ≤ q := by
  by_contra hlt
  have h₁ := alignUp_lt n ha
  have h₂ := add_le_of_dvd hq (dvd_alignUp n ha) (by omega)
  omega

theorem alignUp_mono {m n a : ℕ} (ha : 0 < a) (h : m ≤ n) : alignUp m a ≤ alignUp n a :=
  alignUp_le ha (h.trans (le_alignUp n a)) (dvd_alignUp n ha)

/-- A coarser alignment never rounds to a smaller number. -/
theorem alignUp_le_of_dvd {n a b : ℕ} (hb : 0 < b) (hab : a ∣ b) : alignUp n a ≤ alignUp n b :=
  alignUp_le (Nat.pos_of_dvd_of_pos hab hb) (le_alignUp n b) (hab.trans (dvd_alignUp n hb))

theorem alignUp_add_left {k a : ℕ} (n : ℕ) (hk : a ∣ k) : alignUp (k + n) a = k + alignUp n a := by
  obtain ⟨c, rfl⟩ := hk
  simp [alignUp, Nat.add_assoc]

/-- Rounding up commutes with the reduction by a multiple of the alignment. -/
theorem alignUp_mod_mod {a m : ℕ} (ham : a ∣ m) (n : ℕ) :
    alignUp (n % m) a % m = alignUp n a % m := by
  have hsplit : alignUp n a = m * (n / m) + alignUp (n % m) a := by
    rw [← alignUp_add_left _ (ham.mul_right _), Nat.div_add_mod]
  rw [hsplit, Nat.mul_add_mod]

@[simp] theorem alignUp_zero (a : ℕ) : alignUp 0 a = 0 := by simp [alignUp]

/-- Doubling an alignment moves a rounded number by nothing or by the old alignment. -/
theorem alignUp_two_mul (n : ℕ) {a : ℕ} (ha : 0 < a) :
    alignUp n (2 * a) = alignUp n a + if 2 * a ∣ alignUp n a then 0 else a := by
  have hle := alignUp_le_of_dvd (n := n) (by omega : 0 < 2 * a) (Dvd.intro_left 2 rfl)
  split
  · next hdvd =>
      apply le_antisymm _ (by omega)
      exact alignUp_le (by omega) (le_alignUp n a) hdvd
  · next hndvd =>
      have hd := dvd_alignUp n ha
      have hsum : 2 * a ∣ alignUp n a + a := by
        obtain ⟨c, hc⟩ := hd
        rcases Nat.even_or_odd' c with ⟨e, rfl | rfl⟩
        · exact (hndvd ⟨e, by rw [hc]; ring⟩).elim
        · exact ⟨e + 1, by rw [hc]; ring⟩
      apply le_antisymm
      · exact alignUp_le (by omega) ((le_alignUp n a).trans (by omega)) hsum
      · refine add_le_of_dvd hd ((Dvd.intro_left 2 rfl).trans (dvd_alignUp n (by omega))) ?_
        refine lt_of_le_of_ne hle fun h => hndvd ?_
        rw [h]
        exact dvd_alignUp n (by omega)

/-! ## Rounding by masks -/

/-- Clearing the low `k` bits rounds down to a multiple of `2 ^ k`. -/
theorem toNat_and_not_mask {w k : ℕ} (hk : k < w) (x : BitVec w) :
    (x &&& ~~~(BitVec.ofNat w (2 ^ k) - 1#w)).toNat = x.toNat - x.toNat % 2 ^ k := by
  have hmask : BitVec.ofNat w (2 ^ k) - 1#w = BitVec.ofNat w (2 ^ k - 1) := by
    have h1 : 1 ≤ 2 ^ k := Nat.one_le_two_pow
    have h2 : 2 ^ k < 2 ^ w := Nat.pow_lt_pow_right (by decide) hk
    apply BitVec.eq_of_toNat_eq
    simp only [BitVec.toNat_sub, BitVec.toNat_ofNat, Nat.mod_eq_of_lt h2,
      Nat.mod_eq_of_lt (h1.trans_lt h2)]
    rw [show 2 ^ w - 1 + 2 ^ k = 2 ^ w + (2 ^ k - 1) by omega, Nat.add_mod_left]
  rw [hmask, ← Nat.div_mul_self_eq_mod_sub_self]
  apply Nat.eq_of_testBit_eq
  intro i
  rw [BitVec.testBit_toNat, BitVec.getLsbD_and, BitVec.getLsbD_not, BitVec.getLsbD_ofNat,
    Nat.testBit_two_pow_sub_one, Nat.testBit_mul_two_pow, Nat.testBit_div_two_pow]
  by_cases hik : i < k
  · simp [hik]
  · have hback : i - k + k = i := by omega
    by_cases hi : i < w
    · simp [hi, hik, hback, BitVec.testBit_toNat, Nat.le_of_not_lt hik]
    · simp [hback, BitVec.testBit_toNat, BitVec.getLsbD_of_ge x i (by omega)]

/-- The idiom `((x - 1) & ~(a - 1)) + a` for a power of two `a` is `alignUp`, as
long as the rounded value fits. -/
theorem toNat_alignUp_mask {w k : ℕ} (hk : k < w) (x : BitVec w)
    (hx : x.toNat + 2 ^ k ≤ 2 ^ w) :
    (((x - 1#w) &&& ~~~(BitVec.ofNat w (2 ^ k) - 1#w)) + BitVec.ofNat w (2 ^ k)).toNat =
      alignUp x.toNat (2 ^ k) := by
  have h1 : 1 ≤ 2 ^ k := Nat.one_le_two_pow
  have h2 : 2 ^ k < 2 ^ w := Nat.pow_lt_pow_right (by decide) hk
  rw [BitVec.toNat_add, toNat_and_not_mask hk, BitVec.toNat_ofNat, Nat.mod_eq_of_lt h2]
  have hdvd : 2 ^ k ∣ 2 ^ w := Nat.pow_dvd_pow 2 hk.le
  by_cases hz : x.toNat = 0
  · have hpred : (x - 1#w).toNat = 2 ^ w - 1 := by
      rw [BitVec.toNat_sub, hz, BitVec.toNat_ofNat, Nat.mod_eq_of_lt (h1.trans_lt h2)]
      exact Nat.mod_eq_of_lt (by omega)
    have hmod : (2 ^ w - 1) % 2 ^ k = 2 ^ k - 1 := by
      obtain ⟨c, hc⟩ := hdvd
      have hc0 : 0 < c := Nat.pos_of_ne_zero (by rintro rfl; simp at hc)
      obtain ⟨d, rfl⟩ := Nat.exists_eq_succ_of_ne_zero hc0.ne'
      rw [hc, Nat.mul_succ, Nat.add_sub_assoc h1, Nat.mul_add_mod, Nat.mod_eq_of_lt (by omega)]
    rw [hpred, hmod, hz, alignUp_zero, show 2 ^ w - 1 - (2 ^ k - 1) + 2 ^ k = 2 ^ w by omega,
      Nat.mod_self]
  · have hpred : (x - 1#w).toNat = x.toNat - 1 := by
      rw [BitVec.toNat_sub, BitVec.toNat_ofNat, Nat.mod_eq_of_lt (h1.trans_lt h2),
        show 2 ^ w - 1 + x.toNat = 2 ^ w + (x.toNat - 1) by omega, Nat.add_mod_left]
      exact Nat.mod_eq_of_lt (by have := x.isLt; omega)
    -- the rounded value is the multiple of `2 ^ k` in `[x, x + 2 ^ k)`
    have hround : x.toNat - 1 - (x.toNat - 1) % 2 ^ k + 2 ^ k = alignUp x.toNat (2 ^ k) := by
      have hlow := Nat.mod_lt (x.toNat - 1) h1
      have hbase : 2 ^ k ∣ x.toNat - 1 - (x.toNat - 1) % 2 ^ k := Nat.dvd_sub_mod _
      have hge := le_alignUp x.toNat (2 ^ k)
      apply le_antisymm
      · exact add_le_of_dvd hbase (dvd_alignUp x.toNat h1) (by omega)
      · exact alignUp_le h1 (by omega) ((Nat.dvd_add_right hbase).mpr dvd_rfl)
    have hlt := alignUp_lt x.toNat h1
    rw [hpred, hround, Nat.mod_eq_of_lt (by omega)]

end Align
