import Mathlib
import Llxvm.Runtime.Segments

/-!
# The break of the heap

`sbrk` compares a sum of 32-bit numbers with the limits of the heap and creates the pages that
are missing.  Runs of it begin in the initial state, and the program stores to the memory between
the calls.
-/

namespace Llxvm.Runtime.Memory

open LittleEndian

/-- A sequence of calls of `sbrk`, successful or not, and of stores. -/
inductive SbrkRun : Memory → Memory → Prop where
  | refl (m : Memory) : SbrkRun m m
  | call {m m' m'' : Memory} {k r : BitVec 32} (h : SbrkRun m m')
      (hexec : Memory.sbrk k m' = .ok r m'') : SbrkRun m m''
  | store {m m' m'' : Memory} {addr : BitVec 32} {v : Prim} (h : SbrkRun m m')
      (hexec : Memory.store addr v m' = .ok () m'') : SbrkRun m m''

/-- The break is between the limits, and below it every page of the heap is present. -/
structure HeapMapped (m : Memory) : Prop where
  ge : (dataSize : ℤ) ≤ m.heapEnd.toInt
  le : m.heapEnd.toInt ≤ (memSize - stackSize : ℕ)
  mapped : ∀ a, dataSize ≤ a → a < m.heapEnd.toNat → (m.pages (a / pageSize)).isSome

/-- The exact sum of the break and the increment is between the limits. -/
def InHeap (m : Memory) (k : BitVec 32) : Prop :=
  (dataSize : ℤ) ≤ m.heapEnd.toInt + k.toInt ∧
    m.heapEnd.toInt + k.toInt ≤ (memSize - stackSize : ℕ)

/-- The result of a call of `sbrk`: it moves the break by exactly the increment, or else it
fails and changes nothing but `errno`. -/
structure SbrkCall (m : Memory) (k r : BitVec 32) (m' : Memory) : Prop where
  success : InHeap m k → r = m.heapEnd ∧ m'.heapEnd.toInt = m.heapEnd.toInt + k.toInt
  fails_iff : r = -1#32 ↔ ¬ InHeap m k
  failure : ¬ InHeap m k → m'.heapEnd = m.heapEnd ∧
    ∀ i, (m'.pages i).isSome = (m.pages i).isSome
  present : ∀ i, (m.pages i).isSome → (m'.pages i).isSome
  kept : ∀ x, m.Mapped x →
    (InHeap m k ∨ ∀ cell, m'.errno = some cell → x < cell.toNat ∨ cell.toNat + 4 ≤ x) →
    m'.byte x = m.byte x

/-- What holds between two calls: the cell of `errno` is in the first page, when it has been
allocated. -/
structure HeapInv (m : Memory) : Prop extends HeapMapped m where
  errno : m.errno = none ∧ m.dataEnd = 8#32 ∨ m.errno = some 8#32
  cell : m.Mapped 8

theorem heapInv_initial : HeapInv Memory.initial where
  ge := by decide
  le := by decide
  mapped a hlo hhi := by
    have hend : Memory.initial.heapEnd.toNat = dataSize := rfl
    omega
  errno := Or.inl ⟨rfl, rfl⟩
  cell := by decide

section call

variable {m m' : Memory} {k r : BitVec 32}

/-- The comparisons are made with a sum that may have wrapped around; then it is negative. -/
theorem HeapMapped.sbrkFails_iff (h : HeapMapped m) (k : BitVec 32) :
    SbrkFails m k ↔ ¬ InHeap m k := by
  have hlo := h.ge
  have hhi := h.le
  have hk := k.toInt_lt
  have hk' := k.le_toInt
  have hlow : (BitVec.ofNat 32 dataSize).toInt = dataSize := by decide
  have hhigh : (BitVec.ofNat 32 (memSize - stackSize)).toInt = (memSize - stackSize : ℕ) := by
    decide
  simp only [SbrkFails, InHeap, BitVec.slt_iff_toInt_lt, hlow, hhigh, BitVec.toInt_add,
    Int.bmod_def]
  simp only [dataSize, memSize, stackSize] at *
  split_ifs <;> omega

/-- Where the sum is between the limits it has not wrapped around. -/
theorem HeapMapped.toInt_add (h : HeapMapped m) (hin : InHeap m k) :
    (m.heapEnd + k).toInt = m.heapEnd.toInt + k.toInt := by
  have hlo := h.ge
  have hhi := h.le
  obtain ⟨hin₁, hin₂⟩ := hin
  rw [BitVec.toInt_add, Int.bmod_def]
  simp only [dataSize, memSize, stackSize] at *
  split_ifs <;> omega

theorem HeapInv.errnoCell (h : HeapInv m) :
    ∃ d, Memory.errnoCell m = .ok 8#32 { m with dataEnd := d, errno := some 8#32 } := by
  rcases h.errno with ⟨hnone, hend⟩ | hsome
  · refine ⟨alignOffsetUp (8#32 + 4#32) alignment, ?_⟩
    simp only [Memory.errnoCell, bind, EStateM.bind, get, getThe, MonadStateOf.get, EStateM.get,
      hnone]
    rw [← hend]
    rfl
  · refine ⟨m.dataEnd, ?_⟩
    simp only [Memory.errnoCell, bind, EStateM.bind, get, getThe, MonadStateOf.get, EStateM.get,
      hsome]
    rw [← hsome]
    rfl

theorem HeapInv.setErrno (h : HeapInv m) (v : BitVec 32) :
    ∃ d, Memory.setErrno v m =
      .ok (-1#32) ({ m with dataEnd := d, errno := some 8#32 }.write 8 (leBytes 4 v)) := by
  obtain ⟨d, hcell⟩ := h.errnoCell
  refine ⟨d, ?_⟩
  have hm : ({ m with dataEnd := d, errno := some 8#32 } : Memory).Mapped (8#32).toNat := h.cell
  have hpage : InPage (8#32).toNat (leBytes 4 v).length := by
    unfold InPage
    rw [length_leBytes]
    decide
  have hstore := storeBytes_ok hm hpage
  simp only [Memory.setErrno, bind, EStateM.bind, hcell, storeInt, hstore]
  rfl

/-- The loop over the pages leaves the pages that were there. -/
theorem pages_mapPages_isSome {bottom last i : ℕ} :
    ((mapPages m bottom last).pages i).isSome ↔
      (m.pages i).isSome ∨ bottom ≤ i ∧ i ≤ last := by
  simp only [mapPages]
  split_ifs with h
  · simp [h]
  · cases hpage : m.pages i with
    | none => simp_all
    | some page => simp

/-- The pages from that of the old break to that of the last byte below the new one are
created, so that none is missing in between. -/
theorem HeapInv.sbrk_of_inHeap (h : HeapInv m) (hin : InHeap m k) :
    ∃ m', Memory.sbrk k m = .ok m.heapEnd m' ∧ SbrkCall m k m.heapEnd m' ∧ HeapInv m' := by
  have hrun := sbrk_of_not_fails (m := m) (k := k)
    (mt (h.sbrkFails_iff k).mp (not_not.mpr hin))
  have hend := h.toInt_add hin
  have hge := h.ge
  have hle := h.le
  obtain ⟨hin₁, hin₂⟩ := id hin
  have hold : m.heapEnd.toInt = m.heapEnd.toNat := by
    have := m.heapEnd.isLt
    rw [toInt_eq]
    rw [toInt_eq] at hge
    simp only [dataSize] at *
    split_ifs at hge ⊢ <;> omega
  have hnew : (m.heapEnd + k).toInt = (m.heapEnd + k).toNat := by
    have := (m.heapEnd + k).isLt
    rw [← hend] at hin₁
    rw [toInt_eq] at hin₁ ⊢
    simp only [dataSize] at *
    split_ifs at hin₁ ⊢ <;> omega
  have hlast : (m.heapEnd + k - 1#32).toNat = (m.heapEnd + k).toNat - 1 := by
    rw [BitVec.toNat_sub, BitVec.toNat_ofNat]
    simp only [dataSize] at hin₁
    omega
  rw [toNat_ushiftRight_pageShift, toNat_ushiftRight_pageShift, hlast] at hrun
  have hbyte : ∀ x, m.Mapped x → (mapPages { m with heapEnd := m.heapEnd + k }
      (m.heapEnd.toNat / pageSize) (((m.heapEnd + k).toNat - 1) / pageSize)).byte x = m.byte x :=
    fun x hx => byte_mapPages { m with heapEnd := m.heapEnd + k } _ _ hx
  refine ⟨_, hrun, ⟨fun _ => ⟨rfl, hend⟩, ?_, fun hno => (hno hin).elim, ?_, ?_⟩, ?_⟩
  · refine iff_of_false (fun heq => ?_) (not_not.mpr hin)
    rw [heq] at hge
    exact absurd hge (by decide)
  · intro i hi
    exact pages_mapPages_isSome.mpr (Or.inl hi)
  · intro x hx _
    exact hbyte x hx
  · refine ⟨⟨?_, ?_, ?_⟩, h.errno, ?_⟩
    · change (dataSize : ℤ) ≤ (m.heapEnd + k).toInt
      rw [hend]
      exact hin₁
    · change (m.heapEnd + k).toInt ≤ _
      rw [hend]
      exact hin₂
    · intro a hlo hhi
      rw [pages_mapPages_isSome]
      rcases Nat.lt_or_ge a m.heapEnd.toNat with hlt | hge'
      · exact Or.inl (h.mapped a hlo hlt)
      · have hhi' : a < (m.heapEnd + k).toNat := hhi
        exact Or.inr ⟨Nat.div_le_div_right hge', Nat.div_le_div_right (by omega)⟩
    · rw [Mapped, hbyte 8 h.cell]
      exact h.cell

theorem HeapInv.sbrk_of_not_inHeap (h : HeapInv m) (hin : ¬ InHeap m k) :
    ∃ m', Memory.sbrk k m = .ok (-1#32) m' ∧ SbrkCall m k (-1#32) m' ∧ HeapInv m' := by
  obtain ⟨d, hset⟩ := h.setErrno enomem
  have hrun := (sbrk_of_fails ((h.sbrkFails_iff k).mpr hin)).trans hset
  have hpage : InPage 8 (leBytes 4 enomem).length := by
    unfold InPage
    rw [length_leBytes]
    decide
  have hm : ({ m with dataEnd := d, errno := some 8#32 } : Memory).Mapped 8 := h.cell
  refine ⟨_, hrun, ⟨fun hno => (hin hno).elim, iff_of_true rfl hin, fun _ => ⟨rfl, ?_⟩, ?_, ?_⟩, ?_⟩
  · intro i
    exact pages_write_isSome _ _ _ i
  · intro i hi
    rw [pages_write_isSome]
    exact hi
  · intro x hx hout
    have hcell := (hout.resolve_left hin) 8#32 rfl
    rw [byte_write hm hpage, length_leBytes, if_neg]
    · exact byte_congr rfl x
    · have h8 : (8#32).toNat = 8 := rfl
      omega
  · refine ⟨⟨h.ge, h.le, fun a hlo hhi => ?_⟩, Or.inr rfl, (mapped_write ..).mpr hm⟩
    rw [pages_write_isSome]
    exact h.mapped a hlo hhi

theorem HeapInv.sbrk (h : HeapInv m) (k : BitVec 32) :
    ∃ r m', Memory.sbrk k m = .ok r m' ∧ SbrkCall m k r m' ∧ HeapInv m' := by
  by_cases hin : InHeap m k
  · exact ⟨_, h.sbrk_of_inHeap hin⟩
  · exact ⟨_, h.sbrk_of_not_inHeap hin⟩

theorem HeapInv.write (h : HeapInv m) (a : ℕ) (bs : List (BitVec 8)) : HeapInv (m.write a bs) where
  ge := h.ge
  le := h.le
  mapped x hlo hhi := by
    rw [pages_write_isSome]
    exact h.mapped x hlo hhi
  errno := h.errno
  cell := (mapped_write ..).mpr h.cell

theorem HeapInv.store (h : HeapInv m) {addr : BitVec 32} {v : Prim}
    (hexec : Memory.store addr v m = .ok () m') : HeapInv m' := by
  rw [store_eq] at hexec
  rcases storeBytes_cases m addr v.bytes with ⟨-, -, hstore⟩ | ⟨e, hstore⟩
  · cases hstore.symm.trans hexec
    exact h.write _ _
  · cases hstore.symm.trans hexec

theorem SbrkRun.inv (h : SbrkRun m m') (hinv : HeapInv m) : HeapInv m' := by
  induction h with
  | refl => exact hinv
  | call _ hexec ih =>
      obtain ⟨r, m₁, hrun, -, hnext⟩ := ih.sbrk _
      cases hrun.symm.trans hexec
      exact hnext
  | store _ hexec ih => exact ih.store hexec

end call

/-- In every run of `sbrk` the heap is mapped and stays between its limits, and every further
call moves the break by exactly the increment or fails without an effect on the pages; what has
been stored in the pages stays there. -/
theorem sbrkRun_heap {m : Memory} (h : SbrkRun Memory.initial m) :
    HeapMapped m ∧ ∀ k, ∃ r m', Memory.sbrk k m = .ok r m' ∧ SbrkCall m k r m' := by
  have hinv := h.inv heapInv_initial
  refine ⟨hinv.toHeapMapped, fun k => ?_⟩
  obtain ⟨r, m', hrun, hcall, -⟩ := hinv.sbrk k
  exact ⟨r, m', hrun, hcall⟩

/-- The heap grows over a page, which is stored to, it shrinks, and a call fails. -/
theorem sbrkRun_heap_grown : ∃ m₁ m₂ m₃ m₄ : Memory,
    Memory.sbrk 0x10010#32 Memory.initial = .ok 0x100000#32 m₁ ∧
    Memory.store 0x110000#32 (.int 0x12345678#32) m₁ = .ok () m₂ ∧
    Memory.sbrk (-8#32) m₂ = .ok 0x110010#32 m₃ ∧
    Memory.sbrk 0x7fffffff#32 m₃ = .ok (-1#32) m₄ ∧
    m₄.heapEnd = 0x110008#32 ∧ m₄.byte 0x110001 = some 0x56#8 ∧ HeapMapped m₄ ∧
    ∀ k, ∃ r m', Memory.sbrk k m₄ = .ok r m' ∧ SbrkCall m₄ k r m' := by
  have hgrow := @SbrkRun.call _ _ _ 0x10010#32 _ (.refl Memory.initial) rfl
  have hstore := @SbrkRun.store _ _ _ 0x110000#32 (.int 0x12345678#32) hgrow rfl
  have hshrink := @SbrkRun.call _ _ _ (-8#32) _ hstore rfl
  have hfail := @SbrkRun.call _ _ _ 0x7fffffff#32 _ hshrink rfl
  exact ⟨_, _, _, _, rfl, rfl, rfl, rfl, rfl, by decide +kernel, sbrkRun_heap hfail⟩

end Llxvm.Runtime.Memory
