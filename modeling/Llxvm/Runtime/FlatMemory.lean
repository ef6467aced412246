import Llxvm.Runtime.Memory
import Mathlib.Logic.Function.Basic

/-!
# The flat view of the paged memory

Addresses become natural numbers and the page table a partial function from
addresses to bytes.  The later modules argue about accesses only through the
specifications proved here.
-/

namespace Llxvm.Runtime.Memory

open Align LittleEndian

/-- The byte at an address, if its page is present. -/
def byte (m : Memory) (a : ℕ) : Option (BitVec 8) :=
  if a / pageSize < pageCount then (m.pages (a / pageSize)).map (· (a % pageSize)) else none

def Mapped (m : Memory) (a : ℕ) : Prop := (m.byte a).isSome

/-- The bytes from `a` on are the given ones. -/
def Holds (m : Memory) (a : ℕ) (bs : List (BitVec 8)) : Prop :=
  ∀ i < bs.length, m.byte (a + i) = bs[i]?

/-- An access of `n` bytes at `a` stays in the page of its first byte. -/
def InPage (a n : ℕ) : Prop := a % pageSize + n ≤ pageSize

/-- The memory after a successful store. -/
def write (m : Memory) (a : ℕ) (bs : List (BitVec 8)) : Memory :=
  { m with
    pages := Function.update m.pages (a / pageSize)
      ((m.pages (a / pageSize)).map (putBytes · (a % pageSize) bs)) }

section write

variable (m : Memory) (a : ℕ) (bs : List (BitVec 8))

@[simp] theorem write_dataEnd : (m.write a bs).dataEnd = m.dataEnd := rfl
@[simp] theorem write_heapEnd : (m.write a bs).heapEnd = m.heapEnd := rfl
@[simp] theorem write_framePointer : (m.write a bs).framePointer = m.framePointer := rfl
@[simp] theorem write_stackPointer : (m.write a bs).stackPointer = m.stackPointer := rfl
@[simp] theorem write_stackDepth : (m.write a bs).stackDepth = m.stackDepth := rfl
@[simp] theorem write_errno : (m.write a bs).errno = m.errno := rfl

theorem pages_write_isSome (i : ℕ) : ((m.write a bs).pages i).isSome = (m.pages i).isSome := by
  by_cases h : i = a / pageSize
  · subst h
    simp [write]
  · simp [write, Function.update_of_ne h]

@[simp] theorem mapped_write (x : ℕ) : (m.write a bs).Mapped x ↔ m.Mapped x := by
  simp only [Mapped, byte]
  split
  · simp [pages_write_isSome]
  · exact Iff.rfl

end write

theorem byte_congr {m m' : Memory} (h : m.pages = m'.pages) (a : ℕ) : m.byte a = m'.byte a := by
  simp [byte, h]

theorem Mapped.lt_memSize {m : Memory} {a : ℕ} (h : m.Mapped a) : a < memSize := by
  by_contra hge
  have hdiv : ¬ a / pageSize < pageCount := by
    simp only [memSize, pageSize, pageCount] at hge ⊢
    omega
  simp [Mapped, byte, hdiv] at h

theorem Holds.mapped {m : Memory} {a : ℕ} {bs : List (BitVec 8)} (h : m.Holds a bs) {i : ℕ}
    (hi : i < bs.length) : m.Mapped (a + i) := by
  simp [Mapped, h i hi, hi]

/-- A naturally aligned access never straddles two pages. -/
theorem inPage_of_dvd {a n k : ℕ} (hn : n ∣ pageSize) (ha : n ∣ a) (hk : k ≤ n) : InPage a k := by
  unfold InPage
  have hpos : 0 < n := Nat.pos_of_dvd_of_pos hn (by decide)
  have hmod : n ∣ a % pageSize := (Nat.dvd_mod_iff hn).mpr ha
  have := add_le_of_dvd hmod hn (Nat.mod_lt a (by decide))
  omega

/-- All bytes of an access inside a page are present, or none is. -/
theorem mapped_add_iff {m : Memory} {a n i : ℕ} (hp : InPage a n) (hi : i < n) :
    m.Mapped (a + i) ↔ m.Mapped a := by
  unfold InPage at hp
  have hdiv : (a + i) / pageSize = a / pageSize := by
    simp only [pageSize] at *
    omega
  simp only [Mapped, byte, hdiv]
  split <;> simp

/-- Reading back after a write: the written bytes inside, the old ones outside. -/
theorem byte_write {m : Memory} {a : ℕ} {bs : List (BitVec 8)} (hm : m.Mapped a)
    (hp : InPage a bs.length) (x : ℕ) :
    (m.write a bs).byte x = if a ≤ x ∧ x < a + bs.length then bs[x - a]? else m.byte x := by
  have ha : a / pageSize < pageCount := by
    by_contra h
    simp [Mapped, byte, h] at hm
  unfold InPage at hp
  by_cases hpage : x / pageSize = a / pageSize
  · -- both addresses are in the page written to, so offsets compare as addresses do
    have hx := Nat.div_add_mod x pageSize
    have ha' := Nat.div_add_mod a pageSize
    rw [hpage] at hx
    cases hpg : m.pages (a / pageSize) with
    | none => simp [Mapped, byte, hpg] at hm
    | some page =>
        have hiff : (a % pageSize ≤ x % pageSize ∧ x % pageSize < a % pageSize + bs.length) ↔
            (a ≤ x ∧ x < a + bs.length) := by
          simp only [pageSize] at *
          omega
        simp only [byte, write, hpage, ha, if_true, Function.update_self, hpg, Option.map_some,
          putBytes, hiff]
        split
        · next h =>
            have hsub : x % pageSize - a % pageSize = x - a := by
              simp only [pageSize] at *
              omega
            rw [hsub, List.getD_eq_getElem?_getD]
            have hlt : x - a < bs.length := by omega
            simp [hlt]
        · rfl
  · have hout : ¬ (a ≤ x ∧ x < a + bs.length) := by
      rintro ⟨h₁, h₂⟩
      apply hpage
      simp only [pageSize] at *
      omega
    rw [if_neg hout]
    simp [byte, write, Function.update_of_ne hpage]

theorem holds_write {m : Memory} {a : ℕ} {bs : List (BitVec 8)} (hm : m.Mapped a)
    (hp : InPage a bs.length) : (m.write a bs).Holds a bs := by
  intro i hi
  rw [byte_write hm hp, if_pos ⟨by omega, by omega⟩]
  congr 1
  omega

/-- Bytes away from the write keep their contents. -/
theorem Holds.write_of_disjoint {m : Memory} {a x : ℕ} {bs cs : List (BitVec 8)}
    (hm : m.Mapped a) (hp : InPage a bs.length) (hd : x + cs.length ≤ a ∨ a + bs.length ≤ x)
    (h : m.Holds x cs) : (m.write a bs).Holds x cs := by
  intro i hi
  rw [byte_write hm hp, if_neg (by omega)]
  exact h i hi

/-! ## Specifications of the accesses -/

theorem toNat_ushiftRight_pageShift (addr : BitVec 32) :
    (addr >>> pageShift).toNat = addr.toNat / pageSize := by
  rw [BitVec.toNat_ushiftRight, Nat.shiftRight_eq_div_pow]

theorem getOffset_eq (addr : BitVec 32) : getOffset addr = addr.toNat % pageSize := by
  rw [getOffset, BitVec.toNat_and, BitVec.toNat_ofNat]
  exact Nat.and_two_pow_sub_one_eq_mod addr.toNat 16

theorem storeBytes_ok {m : Memory} {addr : BitVec 32} {bs : List (BitVec 8)}
    (hm : m.Mapped addr.toNat) (hp : InPage addr.toNat bs.length) :
    storeBytes addr bs m = .ok () (m.write addr.toNat bs) := by
  have ha : addr.toNat / pageSize < pageCount := by
    by_contra h
    simp [Mapped, byte, h] at hm
  cases hpg : m.pages (addr.toNat / pageSize) with
  | none => simp [Mapped, byte, hpg] at hm
  | some page =>
      unfold InPage at hp
      simp only [storeBytes, getPage, bind, EStateM.bind, toNat_ushiftRight_pageShift, getOffset_eq,
        ha, hp, if_true, hpg, write, Option.map_some]
      rfl

/-- The page of the first byte decides whether an access is a segmentation fault. -/
theorem getPage_of_not_mapped {m : Memory} {addr : BitVec 32} (hm : ¬ m.Mapped addr.toNat) :
    getPage addr m = .ok none m ∨ getPage addr m = .error (.segmentationFault addr) m := by
  simp only [getPage, toNat_ushiftRight_pageShift]
  by_cases ha : addr.toNat / pageSize < pageCount
  · left
    have hpg : m.pages (addr.toNat / pageSize) = none := by
      by_contra h
      obtain ⟨page, hpage⟩ := Option.ne_none_iff_exists'.mp h
      exact hm (by simp [Mapped, byte, ha, hpage])
    rw [if_pos ha, hpg]
  · right
    rw [if_neg ha]

theorem getPage_of_mapped {m : Memory} {addr : BitVec 32} (hm : m.Mapped addr.toNat) :
    ∃ page, getPage addr m = .ok (some page) m := by
  by_cases ha : addr.toNat / pageSize < pageCount
  · cases hpg : m.pages (addr.toNat / pageSize) with
    | none => simp [Mapped, byte, hpg] at hm
    | some page =>
      exact ⟨page, by simp only [getPage, toNat_ushiftRight_pageShift, ha, if_true, hpg]⟩
  · simp [Mapped, byte, ha] at hm

theorem storeBytes_of_not_mapped {m : Memory} {addr : BitVec 32} (bs : List (BitVec 8))
    (hm : ¬ m.Mapped addr.toNat) :
    storeBytes addr bs m = .error (.segmentationFault addr) m := by
  rcases getPage_of_not_mapped hm with h | h
  · simp only [storeBytes, bind, EStateM.bind, h]
    rfl
  · simp only [storeBytes, bind, EStateM.bind, h]

theorem storeBytes_of_not_inPage {m : Memory} {addr : BitVec 32} {bs : List (BitVec 8)}
    (hm : m.Mapped addr.toNat) (hp : ¬ InPage addr.toNat bs.length) :
    storeBytes addr bs m = .error .indexOutOfBounds m := by
  obtain ⟨page, hpage⟩ := getPage_of_mapped hm
  unfold InPage at hp
  simp only [storeBytes, bind, EStateM.bind, hpage, getOffset_eq, hp, if_false]
  rfl

theorem loadBytes_of_not_mapped {m : Memory} {addr : BitVec 32} (n : ℕ)
    (hm : ¬ m.Mapped addr.toNat) :
    loadBytes addr n m = .error (.segmentationFault addr) m := by
  rcases getPage_of_not_mapped hm with h | h
  · simp only [loadBytes, bind, EStateM.bind, h]
    rfl
  · simp only [loadBytes, bind, EStateM.bind, h]

/-- A store either succeeds or throws without having touched the memory. -/
theorem storeBytes_cases (m : Memory) (addr : BitVec 32) (bs : List (BitVec 8)) :
    (m.Mapped addr.toNat ∧ InPage addr.toNat bs.length ∧
        storeBytes addr bs m = .ok () (m.write addr.toNat bs)) ∨
      ∃ e, storeBytes addr bs m = .error e m := by
  by_cases hm : m.Mapped addr.toNat
  · by_cases hp : InPage addr.toNat bs.length
    · exact Or.inl ⟨hm, hp, storeBytes_ok hm hp⟩
    · exact Or.inr ⟨_, storeBytes_of_not_inPage hm hp⟩
  · exact Or.inr ⟨_, storeBytes_of_not_mapped bs hm⟩

/-- A load returns the bytes that stand there or throws, and never changes the memory. -/
theorem loadBytes_cases (m : Memory) (addr : BitVec 32) (n : ℕ) :
    (∃ bs, loadBytes addr n m = .ok bs m ∧ bs.length = n ∧ m.Mapped addr.toNat ∧
        InPage addr.toNat n ∧ m.Holds addr.toNat bs) ∨
      ((m.Mapped addr.toNat → ¬ InPage addr.toNat n) ∧ ∃ e, loadBytes addr n m = .error e m) := by
  simp only [loadBytes, getPage, bind, EStateM.bind, toNat_ushiftRight_pageShift, getOffset_eq]
  by_cases ha : addr.toNat / pageSize < pageCount
  · simp only [ha, if_true]
    cases hpg : m.pages (addr.toNat / pageSize) with
    | none => exact Or.inr ⟨by simp [Mapped, byte, hpg], .segmentationFault addr, rfl⟩
    | some page =>
        have hm : m.Mapped addr.toNat := by simp [Mapped, byte, ha, hpg]
        by_cases hn : addr.toNat % pageSize + n ≤ pageSize
        · refine Or.inl ⟨_, by simp only [hn, if_true]; rfl, by simp [getBytes], hm, hn, ?_⟩
          intro i hi
          have hi' : i < n := by simpa [getBytes] using hi
          have hdiv : (addr.toNat + i) / pageSize = addr.toNat / pageSize := by
            simp only [pageSize] at *
            omega
          have hmod : (addr.toNat + i) % pageSize = addr.toNat % pageSize + i := by
            simp only [pageSize] at *
            omega
          simp [byte, hdiv, hmod, ha, hpg, getBytes, hi']
        · exact Or.inr ⟨fun _ => hn, .indexOutOfBounds, by simp only [hn, if_false]; rfl⟩
  · exact Or.inr ⟨by simp [Mapped, byte, ha], .segmentationFault addr, by simp only [ha, if_false]⟩

theorem Holds.unique {m : Memory} {a : ℕ} {bs cs : List (BitVec 8)} (hb : m.Holds a bs)
    (hc : m.Holds a cs) (hlen : bs.length = cs.length) : bs = cs := by
  apply List.ext_getElem?
  intro i
  by_cases hi : i < bs.length
  · rw [← hb i hi, ← hc i (hlen ▸ hi)]
  · rw [List.getElem?_eq_none (by omega), List.getElem?_eq_none (by omega)]

theorem loadBytes_ok {m : Memory} {addr : BitVec 32} {bs : List (BitVec 8)} (hbs : bs ≠ [])
    (h : m.Holds addr.toNat bs) (hp : InPage addr.toNat bs.length) :
    loadBytes addr bs.length m = .ok bs m := by
  rcases loadBytes_cases m addr bs.length with ⟨cs, hload, hlen, -, -, hc⟩ | ⟨hno, -⟩
  · rw [hload, hc.unique h hlen]
  · exact (hno (h.mapped (List.length_pos_iff.mpr hbs)) hp).elim

end Llxvm.Runtime.Memory
