import Llxvm.Runtime.Pack

/-!
# Single accesses

The memory is meant to be a flat array of bytes, with holes where pages are absent.  An
access is handed to the buffer of the page of its first byte, so it is one to such an array
unless it goes on into the next page.
-/

namespace Llxvm.Runtime.Memory

/-- Storing and loading a value behaves as on a flat array of bytes: if all its bytes are
present the value is there afterwards and nothing else has changed, and otherwise the access
is a segmentation fault without effect. -/
structure FlatAccess (m : Memory) (addr : BitVec 32) (v : Prim) : Prop where
  present : (∀ i < v.type.size, m.Mapped (addr.toNat + i)) →
    ∃ m', store addr v m = .ok () m' ∧ load addr v.type m' = .ok v m' ∧
      (∀ i < v.type.size, m'.byte (addr.toNat + i) = v.bytes[i]?) ∧
      ∀ x, ¬ (addr.toNat ≤ x ∧ x < addr.toNat + v.type.size) → m'.byte x = m.byte x
  absent : ∀ i < v.type.size, ¬ m.Mapped (addr.toNat + i) →
    store addr v m = .error (.segmentationFault addr) m ∧
      load addr v.type m = .error (.segmentationFault addr) m

theorem load_of_not_mapped {m : Memory} {addr : BitVec 32} (t : PrimType)
    (hm : ¬ m.Mapped addr.toNat) : load addr t m = .error (.segmentationFault addr) m := by
  rw [load_eq]
  simp only [bind, EStateM.bind, loadBytes_of_not_mapped t.size hm]

/-- Accesses inside a page, and those that begin in an absent one. -/
theorem flatAccess_of_inPage {m : Memory} {addr : BitVec 32} {v : Prim}
    (hp : InPage addr.toNat v.type.size) : FlatAccess m addr v := by
  have hlen : InPage addr.toNat v.bytes.length := by rwa [Prim.length_bytes]
  constructor
  · intro hmapped
    have hm : m.Mapped addr.toNat := hmapped 0 v.type.size_pos
    have hholds := holds_write hm hlen
    refine ⟨m.write addr.toNat v.bytes, ?_, load_ok hholds hp, ?_, ?_⟩
    · rw [store_eq, storeBytes_ok hm hlen]
    · intro i hi
      exact hholds i (by rwa [Prim.length_bytes])
    · intro x hx
      rw [byte_write hm hlen, Prim.length_bytes, if_neg hx]
  · intro i hi hno
    rw [mapped_add_iff hp hi] at hno
    rw [store_eq]
    exact ⟨storeBytes_of_not_mapped _ hno, load_of_not_mapped _ hno⟩

/-- The paged memory is a flat array for an access exactly when the access stays in a page,
or begins in one that is absent. -/
theorem flatAccess_iff (m : Memory) (addr : BitVec 32) (v : Prim) :
    FlatAccess m addr v ↔ InPage addr.toNat v.type.size ∨ ¬ m.Mapped addr.toNat := by
  constructor
  · intro h
    by_contra hnot
    obtain ⟨hp, hm⟩ := not_or.mp hnot
    have hstore : store addr v m = .error .indexOutOfBounds m := by
      rw [store_eq]
      exact storeBytes_of_not_inPage (not_not.mp hm) (by rwa [Prim.length_bytes])
    by_cases hall : ∀ i < v.type.size, m.Mapped (addr.toNat + i)
    · obtain ⟨m', hok, -⟩ := h.present hall
      cases hstore.symm.trans hok
    · push Not at hall
      obtain ⟨i, hi, hno⟩ := hall
      cases hstore.symm.trans (h.absent i hi hno).1
  · rintro (hp | hm)
    · exact flatAccess_of_inPage hp
    · constructor
      · intro hmapped
        exact (hm (hmapped 0 v.type.size_pos)).elim
      · intro i hi hno
        rw [store_eq]
        exact ⟨storeBytes_of_not_mapped _ hm, load_of_not_mapped _ hm⟩

/-- An `int` that begins in the last byte of the first page of the data segment cannot be
stored, although all its bytes are present. -/
theorem not_flatAccess_straddling :
    (∀ i < 4, Memory.initial.Mapped (0xffff + i)) ∧
      ¬ FlatAccess Memory.initial 0xffff#32 (.int 1) := by
  have hmapped : ∀ i < 4, Memory.initial.Mapped (0xffff + i) := by
    intro i hi
    have hcases : i = 0 ∨ i = 1 ∨ i = 2 ∨ i = 3 := by omega
    rcases hcases with rfl | rfl | rfl | rfl <;> rfl
  refine ⟨hmapped, fun h => ?_⟩
  obtain ⟨m', hstore, -⟩ := h.present hmapped
  cases hstore

end Llxvm.Runtime.Memory
