import Llxvm.Runtime.Pack

/-!
# Nesting of stack frames

`createStackFrame` saves the caller's frame pointer in the same memory the program
writes to, and `destroyStackFrame` finds it again at `framePointer - 8`.  A run is
followed together with its history: the blocks handed out in each open frame and
the registers before each frame was opened.  The chain of saved frame pointers in
memory then spells out exactly that history.
-/

namespace Llxvm.Runtime

open Align LittleEndian

/-- The bytes `[base, base + size)`. -/
structure Block where
  base : ℕ
  size : ℕ
  deriving DecidableEq

def Block.Disjoint (b c : Block) : Prop := b.base + b.size ≤ c.base ∨ c.base + c.size ≤ b.base

/-- The three registers that a frame saves and restores. -/
structure Registers where
  stackPointer : BitVec 32
  framePointer : BitVec 32
  stackDepth : BitVec 32
  deriving DecidableEq

/-- An open frame: the registers before it was created, and the blocks allocated in
the enclosing frame until then. -/
structure OpenFrame where
  saved : Registers
  outer : List Block

/-- Where `createStackFrame` stored the previous frame pointer. -/
def OpenFrame.slot (f : OpenFrame) : Block := ⟨f.saved.stackPointer.toNat - 8, 4⟩

/-- The history of a run: blocks of the current frame, and the open frames from the
innermost outwards. -/
structure Shadow where
  blocks : List Block
  frames : List OpenFrame

def Shadow.live (sh : Shadow) : List Block := sh.blocks ++ sh.frames.flatMap OpenFrame.outer

namespace Memory

def registers (m : Memory) : Registers := ⟨m.stackPointer, m.framePointer, m.stackDepth⟩

def setRegisters (m : Memory) (r : Registers) : Memory :=
  { m with
    stackPointer := r.stackPointer
    framePointer := r.framePointer
    stackDepth := r.stackDepth }

@[simp] theorem registers_setRegisters (m : Memory) (r : Registers) :
    (m.setRegisters r).registers = r := rfl

@[simp] theorem pages_setRegisters (m : Memory) (r : Registers) :
    (m.setRegisters r).pages = m.pages := rfl

@[simp] theorem byte_setRegisters (m : Memory) (r : Registers) (a : ℕ) :
    (m.setRegisters r).byte a = m.byte a := rfl

@[simp] theorem mapped_setRegisters (m : Memory) (r : Registers) (a : ℕ) :
    (m.setRegisters r).Mapped a ↔ m.Mapped a := Iff.rfl

/-- The first address of the stack segment. -/
abbrev stackBottom : ℕ := memSize - stackSize

/-! ## Runs -/

/-- The states reached by well-bracketed runs that keep the stack pointer in the
stack segment, with their histories.  A store goes into bytes of a live block; if it
throws, the run goes on with the memory as the exception left it. -/
inductive StackRun : Memory → Shadow → Prop where
  | initial : StackRun Memory.initial ⟨[], []⟩
  | createStackFrame {m m' : Memory} {sh : Shadow} (h : StackRun m sh)
      (hexec : Memory.createStackFrame m = .ok () m')
      (hroom : (stackBottom : ℤ) ≤ m'.stackPointer.toInt) :
      StackRun m' ⟨[], ⟨m.registers, sh.blocks⟩ :: sh.frames⟩
  | allocateStack {m m' : Memory} {sh : Shadow} {n p : BitVec 32} (h : StackRun m sh)
      (hn : 0 ≤ n.toInt) (hexec : Memory.allocateStack n m = .ok p m')
      (hroom : (stackBottom : ℤ) ≤ m'.stackPointer.toInt) :
      StackRun m' ⟨⟨p.toNat, n.toNat⟩ :: sh.blocks, sh.frames⟩
  | store {m m' : Memory} {sh : Shadow} {addr : BitVec 32} {v : Prim} {b : Block}
      (h : StackRun m sh) (hb : b ∈ sh.live) (hlo : b.base ≤ addr.toNat)
      (hhi : addr.toNat + v.type.size ≤ b.base + b.size)
      (hexec : Memory.store addr v m = .ok () m' ∨ ∃ e, Memory.store addr v m = .error e m') :
      StackRun m' sh
  | destroyStackFrame {m m' : Memory} {sh : Shadow} {f : OpenFrame} {fs : List OpenFrame}
      (h : StackRun m sh) (hopen : sh.frames = f :: fs)
      (hexec : Memory.destroyStackFrame m = .ok () m') : StackRun m' ⟨f.outer, fs⟩

/-! ## The chain of saved frame pointers -/

/-- The stack pointer is aligned and in the stack segment. -/
structure Good (r : Registers) : Prop where
  aligned : 8 ∣ r.stackPointer.toNat
  bottom : stackBottom ≤ r.stackPointer.toNat
  top : r.stackPointer.toNat ≤ memSize

/-- Pairwise disjoint blocks between two addresses. -/
structure BlocksWithin (bs : List Block) (lo hi : ℕ) : Prop where
  lower : ∀ b ∈ bs, lo ≤ b.base
  upper : ∀ b ∈ bs, b.base + b.size ≤ hi
  disjoint : bs.Pairwise Block.Disjoint

/-- The registers and the saved frame pointers in memory agree with the history. -/
def FrameChain (m : Memory) : Registers → List Block → List OpenFrame → Prop
  | r, bs, [] => Good r ∧ BlocksWithin bs r.stackPointer.toNat memSize ∧
      r.framePointer = BitVec.ofNat 32 memSize ∧ r.stackDepth = 0#32
  | r, bs, f :: fs => Good r ∧ r.stackPointer.toNat + 8 ≤ f.saved.stackPointer.toNat ∧
      BlocksWithin bs r.stackPointer.toNat f.slot.base ∧
      r.framePointer = f.saved.stackPointer ∧ r.stackDepth = f.saved.stackDepth + 1#32 ∧
      m.Holds f.slot.base (leBytes 4 f.saved.framePointer) ∧ FrameChain m f.saved f.outer fs

/-- All pages of the stack segment are present. -/
def StackMapped (m : Memory) : Prop := ∀ a, stackBottom ≤ a → a < memSize → m.Mapped a

theorem blocksWithin_nil (lo hi : ℕ) : BlocksWithin [] lo hi := ⟨by simp, by simp, .nil⟩

section chain

variable {m m' : Memory} {r : Registers} {bs : List Block} {fs : List OpenFrame}

theorem FrameChain.good (h : FrameChain m r bs fs) : Good r := by
  cases fs with
  | nil => exact h.1
  | cons f fs => exact h.1

theorem FrameChain.le_slot (h : FrameChain m r bs fs) {f : OpenFrame} (hf : f ∈ fs) :
    r.stackPointer.toNat + 8 ≤ f.saved.stackPointer.toNat := by
  induction fs generalizing r bs with
  | nil => simp at hf
  | cons g fs ih =>
      obtain ⟨-, hle, -, -, -, -, htail⟩ := h
      rcases List.mem_cons.mp hf with rfl | hf
      · exact hle
      · have := ih htail hf
        omega

/-- The chain depends on memory only through the saved slots. -/
theorem FrameChain.transport (h : FrameChain m r bs fs)
    (hslots : ∀ f ∈ fs, m.Holds f.slot.base (leBytes 4 f.saved.framePointer) →
      m'.Holds f.slot.base (leBytes 4 f.saved.framePointer)) : FrameChain m' r bs fs := by
  induction fs generalizing r bs with
  | nil => exact h
  | cons f fs ih =>
      obtain ⟨hgood, hle, hbs, hfp, hd, hhold, htail⟩ := h
      exact ⟨hgood, hle, hbs, hfp, hd, hslots f (by simp) hhold,
        ih htail fun g hg => hslots g (by simp [hg])⟩

theorem FrameChain.congr (h : FrameChain m r bs fs)
    (hslots : ∀ f ∈ fs, ∀ i < 4, m'.byte (f.slot.base + i) = m.byte (f.slot.base + i)) :
    FrameChain m' r bs fs := by
  refine h.transport fun f hf hhold i hi => ?_
  rw [hslots f hf i (by simpa using hi)]
  exact hhold i hi

/-- Every live block lies above the stack pointer, in the stack segment. -/
theorem FrameChain.live_bounds (h : FrameChain m r bs fs) {b : Block}
    (hb : b ∈ bs ++ fs.flatMap OpenFrame.outer) :
    r.stackPointer.toNat ≤ b.base ∧ b.base + b.size ≤ memSize := by
  induction fs generalizing r bs with
  | nil =>
      obtain ⟨-, hbs, -⟩ := h
      have hb : b ∈ bs := by simpa using hb
      exact ⟨hbs.lower b hb, hbs.upper b hb⟩
  | cons f fs ih =>
      obtain ⟨-, hle, hbs, -, -, -, htail⟩ := h
      rw [List.flatMap_cons, List.mem_append] at hb
      rcases hb with hb | hb
      · have := hbs.upper b hb
        have := htail.good.top
        refine ⟨hbs.lower b hb, ?_⟩
        simp only [OpenFrame.slot] at *
        omega
      · have := ih htail hb
        omega

theorem FrameChain.live_pairwise (h : FrameChain m r bs fs) :
    (bs ++ fs.flatMap OpenFrame.outer).Pairwise Block.Disjoint := by
  induction fs generalizing r bs with
  | nil =>
      obtain ⟨-, hbs, -⟩ := h
      simpa using hbs.disjoint
  | cons f fs ih =>
      obtain ⟨-, hle, hbs, -, -, -, htail⟩ := h
      rw [List.flatMap_cons, List.pairwise_append]
      refine ⟨hbs.disjoint, ih htail, ?_⟩
      intro b hb c hc
      have hup := hbs.upper b hb
      have hlo := (htail.live_bounds hc).1
      left
      simp only [OpenFrame.slot] at hup
      omega

/-- A live block never meets a saved frame pointer. -/
theorem FrameChain.live_slot_disjoint (h : FrameChain m r bs fs) {b : Block}
    (hb : b ∈ bs ++ fs.flatMap OpenFrame.outer) {f : OpenFrame} (hf : f ∈ fs) :
    b.Disjoint f.slot := by
  induction fs generalizing r bs with
  | nil => simp at hf
  | cons g fs ih =>
      obtain ⟨-, hle, hbs, -, -, -, htail⟩ := h
      rw [List.flatMap_cons, List.mem_append] at hb
      rcases hb with hb | hb
      · -- a block of the innermost frame lies below all slots
        have hup := hbs.upper b hb
        rcases List.mem_cons.mp hf with rfl | hf
        · exact Or.inl hup
        · have := htail.le_slot hf
          left
          simp only [OpenFrame.slot] at *
          omega
      · rcases List.mem_cons.mp hf with rfl | hf
        · have hlo := (htail.live_bounds hb).1
          right
          simp only [OpenFrame.slot] at *
          omega
        · exact ih htail hb hf

/-- The depth register counts the open frames; it cannot wrap, since each frame takes
eight bytes of the stack. -/
theorem FrameChain.depth (h : FrameChain m r bs fs) :
    r.stackDepth.toNat = fs.length ∧ r.stackPointer.toNat + 8 * fs.length ≤ memSize := by
  induction fs generalizing r bs with
  | nil =>
      obtain ⟨hgood, -, -, hd⟩ := h
      exact ⟨by simp [hd], by simpa using hgood.top⟩
  | cons f fs ih =>
      obtain ⟨-, hle, -, -, hd, -, htail⟩ := h
      obtain ⟨hlen, hroom⟩ := ih htail
      simp only [memSize, List.length_cons] at *
      refine ⟨?_, by omega⟩
      rw [hd, BitVec.toNat_add, hlen]
      exact Nat.mod_eq_of_lt (by simp; omega)

end chain

/-! ## The operations -/

theorem toNat_alignOffsetDown (x : BitVec 32) :
    (alignOffsetDown x alignment).toNat = x.toNat - x.toNat % 8 :=
  toNat_and_not_mask (by decide : 3 < 32) x

theorem toInt_eq (x : BitVec 32) :
    x.toInt = if 2 * x.toNat < 2 ^ 32 then (x.toNat : ℤ) else (x.toNat : ℤ) - 2 ^ 32 := by
  rw [BitVec.toInt_eq_toNat_cond]
  rfl

theorem toNat_lt_of_toInt_nonneg {x : BitVec 32} (h : 0 ≤ x.toInt) : x.toNat < 2 ^ 31 := by
  have := x.isLt
  rw [toInt_eq] at h
  split at h <;> omega

/-- A comparison of an address with a limit, signed as in the source. -/
theorem le_toInt_iff {x : BitVec 32} {n : ℕ} (hn : n < 2 ^ 31) :
    (n : ℤ) ≤ x.toInt ↔ n ≤ x.toNat ∧ x.toNat < 2 ^ 31 := by
  have := x.isLt
  rw [toInt_eq]
  split <;> omega

/-- The stack pointer after an allocation of `n` bytes. -/
def pushed (sp n : BitVec 32) : BitVec 32 := alignOffsetDown (sp - n) alignment

theorem allocateStack_eq (m : Memory) (n : BitVec 32) :
    allocateStack n m = .ok (pushed m.stackPointer n)
      { m with stackPointer := pushed m.stackPointer n } := rfl

/-- An allocation that stays in the stack segment did not wrap around: the block ends
at or below the old stack pointer. -/
theorem pushed_bounds {sp n : BitVec 32} (htop : sp.toNat ≤ memSize) (hn : 0 ≤ n.toInt)
    (hroom : (stackBottom : ℤ) ≤ (pushed sp n).toInt) :
    (pushed sp n).toNat + n.toNat ≤ sp.toNat ∧ 8 ∣ (pushed sp n).toNat ∧
      stackBottom ≤ (pushed sp n).toNat := by
  have hdown : (pushed sp n).toNat = (sp - n).toNat - (sp - n).toNat % 8 :=
    toNat_alignOffsetDown _
  have hsub := BitVec.toNat_sub sp n
  have hsp := sp.isLt
  have hnlt := n.isLt
  rw [toInt_eq] at hn hroom
  simp only [stackBottom, memSize, stackSize] at *
  split at hn <;> split at hroom <;> omega

theorem FrameChain.push_block {m : Memory} {r : Registers} {bs : List Block}
    {fs : List OpenFrame} (h : FrameChain m r bs fs) {sp : BitVec 32} {n : ℕ}
    (hend : sp.toNat + n ≤ r.stackPointer.toNat) (haligned : 8 ∣ sp.toNat)
    (hbottom : stackBottom ≤ sp.toNat) :
    FrameChain m { r with stackPointer := sp } (⟨sp.toNat, n⟩ :: bs) fs := by
  have hwithin : ∀ hi, r.stackPointer.toNat ≤ hi → BlocksWithin bs r.stackPointer.toNat hi →
      BlocksWithin (⟨sp.toNat, n⟩ :: bs) sp.toNat hi := by
    intro hi hle hbs
    refine ⟨?_, ?_, ?_⟩
    · intro b hb
      rcases List.mem_cons.mp hb with rfl | hb
      · exact le_rfl
      · have := hbs.lower b hb
        omega
    · intro b hb
      rcases List.mem_cons.mp hb with rfl | hb
      · exact hend.trans hle
      · exact hbs.upper b hb
    · refine List.pairwise_cons.mpr ⟨?_, hbs.disjoint⟩
      intro b hb
      exact Or.inl (hend.trans (hbs.lower b hb))
  have hgood : Good { r with stackPointer := sp } :=
    ⟨haligned, hbottom, by have := h.good.top; show sp.toNat ≤ memSize; omega⟩
  cases fs with
  | nil =>
      obtain ⟨hr, hbs, hfp, hd⟩ := h
      exact ⟨hgood, hwithin _ hr.top hbs, hfp, hd⟩
  | cons f fs =>
      obtain ⟨hr, hle, hbs, hfp, hd, hhold, htail⟩ := h
      refine ⟨hgood, ?_, hwithin _ ?_ hbs, hfp, hd, hhold, htail⟩
      · change sp.toNat + 8 ≤ _
        omega
      · simp only [OpenFrame.slot]
        omega

/-- The memory that `createStackFrame` leaves when it does not throw. -/
def framed (m : Memory) : Memory :=
  (m.write (pushed m.stackPointer 4#32).toNat (leBytes 4 m.framePointer)).setRegisters
    ⟨pushed m.stackPointer 4#32, m.stackPointer, m.stackDepth + 1#32⟩

theorem createStackFrame_eq (m : Memory) :
    createStackFrame m =
      (do
        storeBytes (pushed m.stackPointer 4#32) (leBytes 4 m.framePointer)
        modify fun m => { m with stackDepth := m.stackDepth + 1#32 } : MemM Unit)
      { m with
        framePointer := m.stackPointer
        stackPointer := pushed m.stackPointer 4#32 } := by
  simp only [createStackFrame, storeStackInt, bind_assoc, pure_bind]
  rfl

theorem createStackFrame_framed {m : Memory} (hm : m.Mapped (pushed m.stackPointer 4#32).toNat)
    (hp : InPage (pushed m.stackPointer 4#32).toNat 4) :
    createStackFrame m = .ok () m.framed := by
  let m₁ : Memory := { m with
    framePointer := m.stackPointer
    stackPointer := pushed m.stackPointer 4#32 }
  have hok : storeBytes (pushed m.stackPointer 4#32) (leBytes 4 m.framePointer) m₁ =
      .ok () (m₁.write (pushed m.stackPointer 4#32).toNat (leBytes 4 m.framePointer)) :=
    storeBytes_ok hm (by simpa using hp)
  rw [createStackFrame_eq]
  simp only [bind, EStateM.bind]
  rw [hok]
  rfl

theorem createStackFrame_cases (m : Memory) :
    (m.Mapped (pushed m.stackPointer 4#32).toNat ∧
        InPage (pushed m.stackPointer 4#32).toNat 4 ∧ createStackFrame m = .ok () m.framed) ∨
      ∃ e m', createStackFrame m = .error e m' := by
  let m₁ : Memory := { m with
    framePointer := m.stackPointer
    stackPointer := pushed m.stackPointer 4#32 }
  rcases storeBytes_cases m₁ (pushed m.stackPointer 4#32) (leBytes 4 m.framePointer) with
    ⟨hm, hp, -⟩ | ⟨e, herr⟩
  · have hp' : InPage (pushed m.stackPointer 4#32).toNat 4 := by simpa using hp
    exact Or.inl ⟨hm, hp', createStackFrame_framed hm hp'⟩
  · refine Or.inr ⟨e, m₁, ?_⟩
    rw [createStackFrame_eq]
    simp only [bind, EStateM.bind]
    rw [herr]

theorem createStackFrame_ok {m m' : Memory} (h : createStackFrame m = .ok () m') :
    m' = m.framed ∧ m.Mapped (pushed m.stackPointer 4#32).toNat ∧
      InPage (pushed m.stackPointer 4#32).toNat 4 := by
  rcases createStackFrame_cases m with ⟨hm, hp, hok⟩ | ⟨e, m₁, herr⟩
  · rw [hok] at h
    cases h
    exact ⟨rfl, hm, hp⟩
  · rw [herr] at h
    cases h

/-- The four bytes below an aligned stack pointer, in an eight byte slot. -/
theorem toNat_pushed_four {sp : BitVec 32} (haligned : 8 ∣ sp.toNat) (hpos : 8 ≤ sp.toNat) :
    (pushed sp 4#32).toNat = sp.toNat - 8 := by
  have hdown : (pushed sp 4#32).toNat = (sp - 4#32).toNat - (sp - 4#32).toNat % 8 :=
    toNat_alignOffsetDown _
  have hsub : (sp - 4#32).toNat = sp.toNat - 4 := by
    have := sp.isLt
    rw [BitVec.toNat_sub]
    simp only [BitVec.toNat_ofNat]
    omega
  omega

theorem FrameChain.framed {m : Memory} {bs : List Block} {fs : List OpenFrame}
    (h : FrameChain m m.registers bs fs) (hm : m.Mapped (pushed m.stackPointer 4#32).toNat)
    (hp : InPage (pushed m.stackPointer 4#32).toNat 4)
    (hbottom : stackBottom + 8 ≤ m.stackPointer.toNat) :
    FrameChain m.framed m.framed.registers [] (⟨m.registers, bs⟩ :: fs) := by
  have hgood := h.good
  have hsp : (pushed m.stackPointer 4#32).toNat = m.stackPointer.toNat - 8 :=
    toNat_pushed_four hgood.aligned (by omega)
  have hlen : InPage (pushed m.stackPointer 4#32).toNat (leBytes 4 m.framePointer).length := by
    simpa using hp
  refine ⟨⟨?_, ?_, ?_⟩, ?_, blocksWithin_nil _ _, rfl, rfl, ?_, h.congr ?_⟩
  · change 8 ∣ (pushed m.stackPointer 4#32).toNat
    rw [hsp]
    exact Nat.dvd_sub hgood.aligned (dvd_refl 8)
  · change stackBottom ≤ (pushed m.stackPointer 4#32).toNat
    omega
  · change (pushed m.stackPointer 4#32).toNat ≤ memSize
    have := hgood.top
    simp only [registers] at this
    omega
  · change (pushed m.stackPointer 4#32).toNat + 8 ≤ m.stackPointer.toNat
    omega
  · change (m.write _ _).Holds (m.stackPointer.toNat - 8) _
    rw [← hsp]
    exact holds_write hm hlen
  · -- the older slots are above the stack pointer, the new one below
    intro f hf i hi
    have hle := h.le_slot hf
    simp only [registers] at hle
    change (m.write _ _).byte _ = _
    rw [byte_write hm hlen, length_leBytes, hsp, if_neg]
    simp only [OpenFrame.slot]
    omega

theorem FrameChain.destroyStackFrame {m : Memory} {bs : List Block} {f : OpenFrame}
    {fs : List OpenFrame} (h : FrameChain m m.registers bs (f :: fs)) :
    Memory.destroyStackFrame m = .ok () (m.setRegisters f.saved) := by
  obtain ⟨-, hle, -, hfp, hd, hhold, htail⟩ := h
  have hgood := htail.good
  simp only [registers] at hle hfp hd
  have haddr : (f.saved.stackPointer - alignment).toNat = f.slot.base := by
    have := f.saved.stackPointer.isLt
    simp only [OpenFrame.slot]
    rw [BitVec.toNat_sub]
    simp only [BitVec.toNat_ofNat]
    omega
  have hpage : InPage f.slot.base 4 := by
    apply inPage_of_dvd (n := 8) (by decide) _ (by decide)
    exact Nat.dvd_sub hgood.aligned (dvd_refl 8)
  let m₁ : Memory := { m with stackPointer := m.framePointer }
  have hload : loadBytes (m.framePointer - alignment) 4 m₁ =
      .ok (leBytes 4 f.saved.framePointer) m₁ := by
    have haddr' : (m.framePointer - alignment).toNat = f.slot.base := by rw [hfp, haddr]
    have hl : loadBytes (m.framePointer - alignment) (leBytes 4 f.saved.framePointer).length m₁ =
        .ok (leBytes 4 f.saved.framePointer) m₁ :=
      loadBytes_ok (by simp [leBytes]) (by rw [haddr']; exact hhold)
        (by rw [haddr']; simpa using hpage)
    simpa using hl
  have hstep : Memory.destroyStackFrame m =
      (do
        let bs ← loadBytes (m.framePointer - alignment) 4
        modify fun m => { m with
          framePointer := ofLeBytes 32 bs
          stackDepth := m.stackDepth - 1#32 } : MemM Unit) m₁ := by
    simp only [Memory.destroyStackFrame, loadI32, bind_assoc, pure_bind]
    rfl
  have hfp' : ofLeBytes 32 (leBytes 4 f.saved.framePointer) = f.saved.framePointer :=
    ofLeBytes_leBytes (by decide) _
  rw [hstep]
  simp only [bind, EStateM.bind, hload, hfp']
  have hdepth : m.stackDepth - 1#32 = f.saved.stackDepth := by rw [hd, BitVec.add_sub_cancel]
  change EStateM.Result.ok () { m with
    framePointer := f.saved.framePointer
    stackPointer := m.framePointer
    stackDepth := m.stackDepth - 1#32 } = _
  rw [hdepth, hfp]
  rfl

theorem FrameChain.setRegisters {m : Memory} {r : Registers} {bs : List Block}
    {fs : List OpenFrame} (h : FrameChain m r bs fs) (s : Registers) :
    FrameChain (m.setRegisters s) r bs fs :=
  h.congr fun _ _ _ _ => rfl

/-- Closing `k + 1` frames restores the registers from before the outermost of them was
opened, and leaves the rest of the chain. -/
theorem FrameChain.destroyStackFramesLoop {m : Memory} {bs : List Block} {fs : List OpenFrame}
    (h : FrameChain m m.registers bs fs) {k : ℕ} (hk : k < fs.length) :
    Memory.destroyStackFramesLoop (k + 1) m = .ok () (m.setRegisters (fs.get ⟨k, hk⟩).saved) ∧
      FrameChain m (fs.get ⟨k, hk⟩).saved (fs.get ⟨k, hk⟩).outer (fs.drop (k + 1)) := by
  induction k generalizing m bs fs with
  | zero =>
      cases fs with
      | nil => simp at hk
      | cons f fs =>
          simp only [Memory.destroyStackFramesLoop, bind, EStateM.bind, h.destroyStackFrame]
          exact ⟨rfl, h.2.2.2.2.2.2⟩
  | succ k ih =>
      cases fs with
      | nil => simp at hk
      | cons f fs =>
          have htail : FrameChain (m.setRegisters f.saved) f.saved f.outer fs :=
            h.2.2.2.2.2.2.setRegisters _
          have hk' : k < fs.length := by simpa using hk
          obtain ⟨hrun, hrest⟩ := ih htail hk'
          rw [Memory.destroyStackFramesLoop]
          simp only [bind, EStateM.bind, h.destroyStackFrame]
          exact ⟨hrun, hrest.congr fun _ _ _ _ => rfl⟩

/-! ## Every run -/

/-- What holds in every reachable state. -/
structure StackInv (m : Memory) (sh : Shadow) : Prop where
  chain : FrameChain m m.registers sh.blocks sh.frames
  mapped : StackMapped m

theorem stackMapped_initial : StackMapped Memory.initial := by
  intro a hlo hhi
  have hidx : a / pageSize < pageCount := by
    simp only [memSize, pageSize, pageCount] at *
    omega
  have hpage : (memSize - stackSize) >>> pageShift ≤ a / pageSize ∧
      a / pageSize ≤ (memSize - 1) >>> pageShift := by
    simp only [Nat.shiftRight_eq_div_pow, stackBottom, memSize, stackSize, pageSize,
      pageShift] at *
    omega
  simp [Mapped, byte, hidx, Memory.initial, hpage]

theorem stackInv_initial : StackInv Memory.initial ⟨[], []⟩ :=
  ⟨⟨⟨by decide, by decide, by decide⟩, blocksWithin_nil _ _, rfl, rfl⟩, stackMapped_initial⟩

theorem StackRun.inv {m : Memory} {sh : Shadow} (h : StackRun m sh) : StackInv m sh := by
  induction h with
  | initial => exact stackInv_initial
  | @createStackFrame m m' sh _ hexec hroom ih =>
      obtain ⟨rfl, hm, hp⟩ := createStackFrame_ok hexec
      have hgood := ih.chain.good
      refine ⟨ih.chain.framed hm hp ?_, fun a hlo hhi => ?_⟩
      · -- the new frame pointer slot is still in the segment
        have hb := pushed_bounds hgood.top (by decide) hroom
        have hal := hgood.aligned
        simp only [registers] at hal hb
        simp only [BitVec.toNat_ofNat] at hb
        omega
      · exact (mapped_write ..).mpr (ih.mapped a hlo hhi)
  | @allocateStack m m' sh n p _ hn hexec hroom ih =>
      rw [allocateStack_eq] at hexec
      cases hexec
      obtain ⟨hend, haligned, hbottom⟩ := pushed_bounds ih.chain.good.top hn hroom
      refine ⟨?_, ih.mapped⟩
      exact (ih.chain.push_block hend haligned hbottom).congr fun _ _ _ _ => rfl
  | @store m m' sh addr v b _ hb hlo hhi hexec ih =>
      rw [store_eq] at hexec
      rcases storeBytes_cases m addr v.bytes with ⟨hm, hp, hok⟩ | ⟨e, herr⟩
      · have hm' : m' = m.write addr.toNat v.bytes := by
          rcases hexec with h | ⟨e, h⟩ <;> rw [hok] at h <;> cases h
          rfl
        subst hm'
        refine ⟨ih.chain.congr ?_, fun a h₁ h₂ => (mapped_write ..).mpr (ih.mapped a h₁ h₂)⟩
        intro f hf i hi
        have hd := ih.chain.live_slot_disjoint hb hf
        rw [byte_write hm hp, Prim.length_bytes, if_neg]
        simp only [Block.Disjoint, OpenFrame.slot] at hd ⊢
        omega
      · have hm' : m' = m := by
          rcases hexec with h | ⟨e', h⟩ <;> rw [herr] at h <;> cases h
          rfl
        exact hm' ▸ ih
  | @destroyStackFrame m m' sh f fs _ hopen hexec ih =>
      have hchain := ih.chain
      rw [hopen] at hchain
      rw [hchain.destroyStackFrame] at hexec
      cases hexec
      exact ⟨hchain.2.2.2.2.2.2.setRegisters _, ih.mapped⟩

/-- Frames nest: alignment, disjointness, and exact restoration by both ways of
closing frames. -/
theorem stackRun_nested {m : Memory} {sh : Shadow} (h : StackRun m sh) :
    8 ∣ m.stackPointer.toNat ∧ sh.live.Pairwise Block.Disjoint ∧
      (∀ b ∈ sh.live, ∀ f ∈ sh.frames, b.Disjoint f.slot) ∧
      (∀ f fs, sh.frames = f :: fs →
        ∃ m', destroyStackFrame m = .ok () m' ∧ m'.registers = f.saved) ∧
      sh.frames.length = m.stackDepth.toNat ∧
      ∀ k : BitVec 32, ∀ hk : 0 < k.toNat ∧ k.toNat ≤ sh.frames.length,
        ∃ m', destroyStackFrames k m = .ok () m' ∧
          m'.registers = (sh.frames.get ⟨k.toNat - 1, by omega⟩).saved := by
  have hinv := h.inv
  have hdepth := hinv.chain.depth
  refine ⟨hinv.chain.good.aligned, hinv.chain.live_pairwise,
    fun b hb f hf => hinv.chain.live_slot_disjoint hb hf, ?_, hdepth.1.symm, ?_⟩
  · intro f fs hfs
    have hchain := hinv.chain
    rw [hfs] at hchain
    exact ⟨_, hchain.destroyStackFrame, rfl⟩
  · intro k hk
    have hcount : k.toInt.toNat = k.toNat - 1 + 1 := by
      have hroom := hdepth.2
      rw [toInt_eq]
      simp only [memSize] at hroom
      split <;> omega
    refine ⟨m.setRegisters (sh.frames.get ⟨k.toNat - 1, by omega⟩).saved, ?_, rfl⟩
    rw [destroyStackFrames, hcount]
    exact (hinv.chain.destroyStackFramesLoop (by omega)).1

/-- Two frames with a block each, into both of which something is stored, closed one by one and at
once. -/
theorem stackRun_nested_two_frames :
    ∃ m outer inner, StackRun m ⟨[⟨0x3fffffc8, 16⟩], [inner, outer]⟩ ∧
      outer = ⟨Memory.initial.registers, []⟩ ∧ inner.outer = [⟨0x3fffffe0, 20⟩] ∧
      8 ∣ m.stackPointer.toNat ∧
      (∃ m', destroyStackFrame m = .ok () m' ∧ m'.registers = inner.saved) ∧
      ∃ m', destroyStackFrames 2#32 m = .ok () m' ∧ m'.registers = Memory.initial.registers := by
  have h₁ := @StackRun.createStackFrame _ _ _ .initial rfl (by decide)
  have h₂ := @StackRun.allocateStack _ _ _ 20#32 _ h₁ (by decide) rfl (by decide)
  have h₃ := @StackRun.store _ _ _ 0x3fffffe8#32 (.long 7) _ h₂ List.mem_cons_self (by decide)
    (by decide) (.inl rfl)
  have h₄ := @StackRun.createStackFrame _ _ _ h₃ rfl (by decide)
  have h₅ := @StackRun.allocateStack _ _ _ 16#32 _ h₄ (by decide) rfl (by decide)
  have h₆ := @StackRun.store _ _ _ 0x3fffffcc#32 (.int (-1)) _ h₅ List.mem_cons_self (by decide)
    (by decide) (.inl rfl)
  obtain ⟨haligned, -, -, hclose, -, hcloses⟩ := stackRun_nested h₆
  exact ⟨_, _, _, h₆, rfl, rfl, haligned, hclose _ _ rfl, hcloses 2#32 (by decide)⟩

end Memory

end Llxvm.Runtime
