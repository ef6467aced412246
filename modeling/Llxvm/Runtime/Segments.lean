import Llxvm.Runtime.StackFrames

/-!
# Separation of the memory segments

The data segment, the heap and the stack share one address space, and each of the
three allocators moves its own cursor.  Only `sbrk` compares its cursor with the
limits.  The runs below record the blocks that were handed out, and are indexed by
a condition on the state before each call.
-/

namespace Llxvm.Runtime.Memory

open Align LittleEndian

/-- The calls of the three allocators. -/
inductive SegOp where
  | allocateData (n : BitVec 32)
  | allocateStack (n : BitVec 32)
  | createStackFrame
  | destroyStackFrame
  | sbrk (k : BitVec 32)

namespace SegOp

def exec : SegOp → MemM (BitVec 32)
  | .allocateData n => Memory.allocateData n
  | .allocateStack n => Memory.allocateStack n
  | .createStackFrame => do
    Memory.createStackFrame
    return 0#32
  | .destroyStackFrame => do
    Memory.destroyStackFrame
    return 0#32
  | .sbrk k => Memory.sbrk k

/-- The call reports an error through its result. -/
def Reports : SegOp → BitVec 32 → Prop
  | .sbrk _, r => r = -1#32
  | _, _ => False

end SegOp

/-- The blocks of the data segment, and the history of the stack. -/
structure History where
  data : List Block
  stack : Shadow

/-- Sizes are not negative, and frames are well bracketed. -/
def History.Legal (hist : History) : SegOp → Prop
  | .allocateData n => 0 ≤ n.toInt
  | .allocateStack n => 0 ≤ n.toInt
  | .destroyStackFrame => hist.stack.frames ≠ []
  | _ => True

/-- The history after a call from `m` that returned `r`. -/
def History.next (hist : History) (m : Memory) (r : BitVec 32) : SegOp → History
  | .allocateData n => { hist with data := ⟨r.toNat, n.toNat⟩ :: hist.data }
  | .allocateStack n =>
      { hist with stack := { hist.stack with blocks := ⟨r.toNat, n.toNat⟩ :: hist.stack.blocks } }
  | .createStackFrame =>
      { hist with stack := ⟨[], ⟨m.registers, hist.stack.blocks⟩ :: hist.stack.frames⟩ }
  | .destroyStackFrame =>
      match hist.stack.frames with
      | [] => hist
      | f :: fs => { hist with stack := ⟨f.outer, fs⟩ }
  | .sbrk _ => hist

/-- The states reached by runs in which no call has thrown or reported an error, and
every call was made in a state that meets the condition `P`. -/
inductive SegRun (P : Memory → SegOp → Prop) : Memory → History → Prop where
  | initial : SegRun P Memory.initial ⟨[], ⟨[], []⟩⟩
  | step {m m' : Memory} {hist : History} {op : SegOp} {r : BitVec 32} (h : SegRun P m hist)
      (hlegal : hist.Legal op) (hP : P m op) (hexec : op.exec m = .ok r m')
      (hok : ¬ op.Reports r) : SegRun P m' (hist.next m r op)

/-- The heap as a block. -/
def heapBlock (m : Memory) : Block := ⟨dataSize, m.heapEnd.toNat - dataSize⟩

/-- The order of the cursors and the segment limits. -/
structure Separated (m : Memory) : Prop where
  data_nonneg : 0 ≤ m.dataEnd.toInt
  data_le : m.dataEnd.toInt ≤ dataSize
  le_heap : (dataSize : ℤ) ≤ m.heapEnd.toInt
  heap_le : m.heapEnd.toInt ≤ stackBottom
  le_stack : (stackBottom : ℤ) ≤ m.stackPointer.toInt

/-- Blocks of different segments do not meet. -/
structure Apart (m : Memory) (hist : History) : Prop where
  data_heap : ∀ d ∈ hist.data, d.Disjoint m.heapBlock
  data_stack : ∀ d ∈ hist.data, ∀ b ∈ hist.stack.live, d.Disjoint b
  heap_stack : ∀ b ∈ hist.stack.live, m.heapBlock.Disjoint b

/-- The condition under which a call stays in its segment: the data segment or the
stack has room for the block, and a new frame has its eight bytes or meets an absent
page below the stack, where it throws. -/
def Fits (m : Memory) : SegOp → Prop
  | .allocateData n => m.dataEnd.toNat + n.toNat ≤ dataSize
  | .allocateStack n => stackBottom + n.toNat ≤ m.stackPointer.toNat
  | .createStackFrame => stackBottom + 8 ≤ m.stackPointer.toNat ∨
      ¬ m.Mapped (m.stackPointer.toNat - 8)
  | .destroyStackFrame => True
  | .sbrk _ => True

/-! ## The invariant -/

/-- The data segment: aligned cursor below its limit, blocks below the cursor. -/
structure DataInv (dataEnd : BitVec 32) (data : List Block) : Prop where
  aligned : 8 ∣ dataEnd.toNat
  le : dataEnd.toNat ≤ dataSize
  below : ∀ d ∈ data, d.base + d.size ≤ dataEnd.toNat

structure SegInv (m : Memory) (hist : History) : Prop where
  data : DataInv m.dataEnd hist.data
  stack : StackInv m hist.stack
  heap_ge : dataSize ≤ m.heapEnd.toNat
  heap_le : m.heapEnd.toNat ≤ stackBottom

theorem segInv_initial : SegInv Memory.initial ⟨[], ⟨[], []⟩⟩ where
  data := ⟨by decide, by decide, by simp⟩
  stack := stackInv_initial
  heap_ge := by decide
  heap_le := by decide

/-- The order of the cursors, over natural numbers. -/
theorem separated_iff (m : Memory) :
    Separated m ↔ m.dataEnd.toNat ≤ dataSize ∧ dataSize ≤ m.heapEnd.toNat ∧
      m.heapEnd.toNat ≤ stackBottom ∧ stackBottom ≤ m.stackPointer.toNat ∧
      m.stackPointer.toNat < 2 ^ 31 := by
  have hd := m.dataEnd.isLt
  have hh := m.heapEnd.isLt
  constructor
  · rintro ⟨h₁, h₂, h₃, h₄, h₅⟩
    have hdata := toNat_lt_of_toInt_nonneg h₁
    rw [le_toInt_iff (by decide)] at h₃ h₅
    rw [toInt_eq, if_pos (by omega)] at h₂ h₄
    exact ⟨by exact_mod_cast h₂, h₃.1, by exact_mod_cast h₄, h₅⟩
  · rintro ⟨h₁, h₂, h₃, h₄⟩
    have hdata : m.dataEnd.toNat < 2 ^ 31 := h₁.trans_lt (by decide)
    have hheap : m.heapEnd.toNat < 2 ^ 31 := h₃.trans_lt (by decide)
    refine ⟨?_, ?_, (le_toInt_iff (by decide)).mpr ⟨h₂, hheap⟩, ?_,
      (le_toInt_iff (by decide)).mpr h₄⟩ <;> rw [toInt_eq, if_pos (by omega)]
    · exact Int.natCast_nonneg _
    · exact_mod_cast h₁
    · exact_mod_cast h₃

theorem SegInv.separated {m : Memory} {hist : History} (h : SegInv m hist) : Separated m :=
  (separated_iff m).mpr ⟨h.data.le, h.heap_ge, h.heap_le, h.stack.chain.good.bottom,
    h.stack.chain.good.top.trans_lt (by decide)⟩

theorem SegInv.apart {m : Memory} {hist : History} (h : SegInv m hist) : Apart m hist := by
  have hd := h.data.le
  have h₁ := h.heap_ge
  have h₂ := h.heap_le
  have h₃ := h.stack.chain.good.bottom
  constructor
  · intro d hmem
    have := h.data.below d hmem
    exact Or.inl (by simp only [heapBlock]; omega)
  · intro d hmem b hb
    have := h.data.below d hmem
    have hb' := (h.stack.chain.live_bounds hb).1
    left
    simp only [stackBottom, memSize, stackSize, dataSize, registers] at *
    omega
  · intro b hb
    have hb' := (h.stack.chain.live_bounds hb).1
    left
    simp only [heapBlock, registers] at *
    omega

/-! ## One call -/

theorem toNat_dataEnd {d n : BitVec 32} (hd : d.toNat ≤ dataSize) (hn : 0 ≤ n.toInt) :
    (alignOffsetUp (d + n) alignment).toNat = alignUp (d.toNat + n.toNat) 8 := by
  have hn' := toNat_lt_of_toInt_nonneg hn
  simp only [dataSize] at hd
  have hsum : (d + n).toNat = d.toNat + n.toNat := by
    rw [BitVec.toNat_add]
    omega
  rw [← hsum]
  refine toNat_alignUp_mask (by decide : 3 < 32) (d + n) ?_
  rw [hsum]
  omega

section call

variable {m m' : Memory} {hist : History} {r : BitVec 32}

theorem SegInv.allocateData (h : SegInv m hist) {n : BitVec 32} (hn : 0 ≤ n.toInt)
    (hexec : Memory.allocateData n m = .ok r m') :
    (Fits m (.allocateData n) → SegInv m' (hist.next m r (.allocateData n))) ∧
      (Separated m' → Fits m (.allocateData n)) := by
  cases hexec
  have hend := toNat_dataEnd h.data.le hn
  have hle : dataSize = alignUp dataSize 8 := (alignUp_eq_self (by decide)).symm
  constructor
  · intro hfits
    refine ⟨⟨?_, ?_, ?_⟩, ⟨h.stack.chain.congr fun _ _ _ _ => rfl, h.stack.mapped⟩,
      h.heap_ge, h.heap_le⟩
    · change 8 ∣ (alignOffsetUp _ _).toNat
      rw [hend]
      exact dvd_alignUp _ (by decide)
    · change (alignOffsetUp _ _).toNat ≤ _
      rw [hend, hle]
      exact alignUp_mono (by decide) hfits
    · intro d hd
      change _ ≤ (alignOffsetUp _ _).toNat
      rw [hend]
      have hup := le_alignUp (m.dataEnd.toNat + n.toNat) 8
      rcases List.mem_cons.mp hd with rfl | hd
      · exact hup
      · have := h.data.below d hd
        omega
  · intro hsep
    have hnew : (alignOffsetUp (m.dataEnd + n) alignment).toNat ≤ dataSize :=
      ((separated_iff _).mp hsep).1
    rw [hend] at hnew
    exact (le_alignUp _ _).trans hnew

theorem SegInv.allocateStack (h : SegInv m hist) {n : BitVec 32} (hn : 0 ≤ n.toInt)
    (hexec : Memory.allocateStack n m = .ok r m') :
    (Fits m (.allocateStack n) → SegInv m' (hist.next m r (.allocateStack n))) ∧
      (Separated m' → Fits m (.allocateStack n)) := by
  rw [allocateStack_eq] at hexec
  cases hexec
  have htop := h.stack.chain.good.top
  have hdown : (pushed m.stackPointer n).toNat =
      (m.stackPointer - n).toNat - (m.stackPointer - n).toNat % 8 := toNat_alignOffsetDown _
  constructor
  · intro hfits
    have hroom : (stackBottom : ℤ) ≤ (pushed m.stackPointer n).toInt := by
      have := m.stackPointer.isLt
      rw [le_toInt_iff (by decide), hdown, BitVec.toNat_sub]
      simp only [Fits, registers, stackBottom, memSize, stackSize] at *
      omega
    obtain ⟨hend, haligned, hbottom⟩ := pushed_bounds htop hn hroom
    exact ⟨h.data, ⟨(h.stack.chain.push_block hend haligned hbottom).congr fun _ _ _ _ => rfl,
      h.stack.mapped⟩, h.heap_ge, h.heap_le⟩
  · intro hsep
    obtain ⟨hend, -, hbottom⟩ := pushed_bounds htop hn hsep.le_stack
    simp only [Fits, registers] at *
    omega

theorem SegInv.createStackFrame (h : SegInv m hist)
    (hexec : Memory.createStackFrame m = .ok () m') :
    (Fits m .createStackFrame → SegInv m' (hist.next m r .createStackFrame)) ∧
      (Separated m' → Fits m .createStackFrame) := by
  obtain ⟨rfl, hm, hp⟩ := createStackFrame_ok hexec
  have hgood := h.stack.chain.good
  have hpushed : (pushed m.stackPointer 4#32).toNat = m.stackPointer.toNat - 8 :=
    toNat_pushed_four hgood.aligned (le_trans (by decide) hgood.bottom)
  constructor
  · intro hfits
    have hroom : stackBottom + 8 ≤ m.stackPointer.toNat := by
      rcases hfits with hroom | hnot
      · exact hroom
      · exact (hnot (hpushed ▸ hm)).elim
    exact ⟨h.data, ⟨h.stack.chain.framed hm hp hroom,
      fun a hlo hhi => (mapped_write ..).mpr (h.stack.mapped a hlo hhi)⟩, h.heap_ge, h.heap_le⟩
  · intro hsep
    have hnew : stackBottom ≤ (pushed m.stackPointer 4#32).toNat :=
      ((separated_iff _).mp hsep).2.2.2.1
    left
    simp only [stackBottom, memSize, stackSize] at *
    omega

theorem SegInv.destroyStackFrame (h : SegInv m hist) (hopen : hist.stack.frames ≠ [])
    (hexec : Memory.destroyStackFrame m = .ok () m') :
    SegInv m' (hist.next m r .destroyStackFrame) := by
  cases hfs : hist.stack.frames with
  | nil => exact (hopen hfs).elim
  | cons f fs =>
      have hchain := h.stack.chain
      rw [hfs] at hchain
      rw [hchain.destroyStackFrame] at hexec
      cases hexec
      have hnext : hist.next m r .destroyStackFrame = { hist with stack := ⟨f.outer, fs⟩ } := by
        simp only [History.next, hfs]
      rw [hnext]
      exact ⟨h.data, ⟨hchain.2.2.2.2.2.2.setRegisters _, h.stack.mapped⟩, h.heap_ge, h.heap_le⟩

/-- Pages that `sbrk` adds were absent before. -/
theorem byte_mapPages (m : Memory) (bottom last : ℕ) {a : ℕ} (h : m.Mapped a) :
    (mapPages m bottom last).byte a = m.byte a := by
  unfold Mapped byte at h
  split at h
  · next hidx =>
      have hpage : m.pages (a / pageSize) ≠ none := by
        intro hnone
        simp [hnone] at h
      simp [byte, mapPages, hidx, hpage]
  · simp at h

theorem setErrno_result {v : BitVec 32} (h : setErrno v m = .ok r m') : r = -1#32 := by
  unfold setErrno at h
  simp only [bind, EStateM.bind] at h
  split at h
  · split at h
    · cases h
      rfl
    · cases h
  · cases h

/-- The comparisons of `sbrk`. -/
def SbrkFails (m : Memory) (k : BitVec 32) : Prop :=
  (BitVec.ofNat 32 (memSize - stackSize)).slt (m.heapEnd + k) ∨
    (m.heapEnd + k).slt (BitVec.ofNat 32 dataSize)

theorem sbrk_of_fails {k : BitVec 32} (h : SbrkFails m k) :
    Memory.sbrk k m = setErrno enomem m := by
  change (if _ then setErrno enomem else _) m = _
  exact congrFun (if_pos h) m

theorem sbrk_of_not_fails {k : BitVec 32} (h : ¬ SbrkFails m k) :
    Memory.sbrk k m = .ok m.heapEnd
      (mapPages { m with heapEnd := m.heapEnd + k } (m.heapEnd >>> pageShift).toNat
        ((m.heapEnd + k - 1#32) >>> pageShift).toNat) := by
  change (if _ then setErrno enomem else _) m = _
  exact congrFun (if_neg h) m

/-- A call of `sbrk` that succeeds keeps the new break between the two limits. -/
theorem sbrk_ok {k : BitVec 32} (hexec : Memory.sbrk k m = .ok r m') (hok : r ≠ -1#32) :
    (dataSize : ℤ) ≤ (m.heapEnd + k).toInt ∧ (m.heapEnd + k).toInt ≤ stackBottom ∧
      ∃ bottom last, m' = mapPages { m with heapEnd := m.heapEnd + k } bottom last := by
  by_cases hbad : SbrkFails m k
  · rw [sbrk_of_fails hbad] at hexec
    exact (hok (setErrno_result hexec)).elim
  · rw [sbrk_of_not_fails hbad] at hexec
    cases hexec
    simp only [SbrkFails, BitVec.slt, decide_eq_true_eq, not_or, not_lt] at hbad
    exact ⟨hbad.2, hbad.1, _, _, rfl⟩

theorem SegInv.sbrk (h : SegInv m hist) {k : BitVec 32} (hexec : Memory.sbrk k m = .ok r m')
    (hok : r ≠ -1#32) : SegInv m' hist := by
  obtain ⟨hlo, hhi, bottom, last, rfl⟩ := sbrk_ok hexec hok
  have hbyte : ∀ {a : ℕ}, m.Mapped a →
      (mapPages { m with heapEnd := m.heapEnd + k } bottom last).byte a = m.byte a :=
    fun ha => byte_mapPages { m with heapEnd := m.heapEnd + k } bottom last ha
  have hge := (le_toInt_iff (by decide)).mp hlo
  refine ⟨h.data, ⟨h.stack.chain.transport ?_, ?_⟩, hge.1, ?_⟩
  · intro f _ hhold i hi
    rw [hbyte (hhold.mapped hi)]
    exact hhold i hi
  · intro a ha hlt
    have hmap := h.stack.mapped a ha hlt
    rw [Mapped, hbyte hmap]
    exact hmap
  · change (m.heapEnd + k).toNat ≤ _
    rw [toInt_eq, if_pos (by omega)] at hhi
    exact_mod_cast hhi

end call

/-- One call: within the condition the invariant is kept, and outside of it the order of
the cursors is lost. -/
theorem SegInv.step {m m' : Memory} {hist : History} {op : SegOp} {r : BitVec 32}
    (h : SegInv m hist) (hlegal : hist.Legal op) (hexec : op.exec m = .ok r m')
    (hok : ¬ op.Reports r) :
    (Fits m op → SegInv m' (hist.next m r op)) ∧ (Separated m' → Fits m op) := by
  cases op with
  | allocateData n => exact h.allocateData hlegal hexec
  | allocateStack n => exact h.allocateStack hlegal hexec
  | createStackFrame =>
      refine h.createStackFrame ?_
      simp only [SegOp.exec, bind, EStateM.bind] at hexec
      split at hexec
      · next heq =>
          cases hexec
          exact heq
      · cases hexec
  | destroyStackFrame =>
      refine ⟨fun _ => h.destroyStackFrame hlegal ?_, fun _ => trivial⟩
      simp only [SegOp.exec, bind, EStateM.bind] at hexec
      split at hexec
      · next heq =>
          cases hexec
          exact heq
      · cases hexec
  | sbrk k => exact ⟨fun _ => h.sbrk hexec hok, fun _ => trivial⟩

/-! ## Every run -/

theorem SegRun.inv {m : Memory} {hist : History} (h : SegRun Fits m hist) : SegInv m hist := by
  induction h with
  | initial => exact segInv_initial
  | step _ hlegal hfits hexec hok ih => exact (ih.step hlegal hexec hok).1 hfits

/-- As long as every call stays in its segment the segments are separated and their blocks
do not meet; and the first call that does not, if it neither throws nor reports an error,
breaks the separation. -/
theorem segRun_separated {m : Memory} {hist : History} (h : SegRun Fits m hist) :
    Separated m ∧ Apart m hist ∧
      ∀ op r m', hist.Legal op → op.exec m = .ok r m' → ¬ op.Reports r →
        (Separated m' ↔ Fits m op) := by
  refine ⟨h.inv.separated, h.inv.apart, fun op r m' hlegal hexec hok => ?_⟩
  obtain ⟨hkeep, hlost⟩ := h.inv.step hlegal hexec hok
  exact ⟨hlost, fun hfits => (hkeep hfits).separated⟩

/-- A data block and a stack block, with the heap grown by a page between them. -/
theorem segRun_separated_three_calls :
    ∃ m hist, SegRun Fits m hist ∧ hist.data = [⟨8, 12⟩] ∧
      hist.stack.live = [⟨0x3ffffff0, 16⟩] ∧ Separated m ∧ Apart m hist := by
  have hdata : SegRun Fits _ _ := .step .initial (show History.Legal _ (.allocateData 12#32) from
    (by decide : 0 ≤ (12#32).toInt)) (by decide : 8 + 12 ≤ dataSize) rfl id
  have hheap : SegRun Fits _ _ := .step hdata (show History.Legal _ (.sbrk 0x10000#32) from
    trivial) trivial rfl (by decide : BitVec.ofNat 32 dataSize ≠ -1#32)
  have hstack : SegRun Fits _ _ := .step hheap (show History.Legal _ (.allocateStack 16#32) from
    (by decide : 0 ≤ (16#32).toInt)) (by decide : stackBottom + 16 ≤ memSize) rfl id
  have hsep := segRun_separated hstack
  exact ⟨_, _, hstack, rfl, rfl, hsep.1, hsep.2.1⟩

/-- A data block as large as the data segment ends in the heap, and no error is raised. -/
theorem segRun_data_overflow :
    ∃ m, SegRun (fun _ _ => True) m ⟨[⟨8, 0x100000⟩], ⟨[], []⟩⟩ ∧ m.heapBlock = ⟨0x100000, 16⟩ ∧
      ¬ Separated m ∧ ¬ Apart m ⟨[⟨8, 0x100000⟩], ⟨[], []⟩⟩ := by
  have hheap : SegRun (fun _ _ => True) _ _ := .step .initial
    (show History.Legal _ (.sbrk 16#32) from trivial) trivial rfl
    (by decide : BitVec.ofNat 32 dataSize ≠ -1#32)
  have hdata : SegRun (fun _ _ => True) _ _ := .step hheap
    (show History.Legal _ (.allocateData 0x100000#32) from
      (by decide : 0 ≤ (0x100000#32).toInt)) trivial rfl id
  refine ⟨_, hdata, rfl, fun hsep => absurd hsep.data_le (by decide), fun hapart => ?_⟩
  have hd := hapart.data_heap ⟨8, 0x100000⟩ (by simp)
  revert hd
  unfold Block.Disjoint
  decide

end Llxvm.Runtime.Memory
