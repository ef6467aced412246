import Llxvm.Runtime.FileHandles

/-!
# Seeking

`llxvm.io.RandomAccessFileHandle.seek`: the position is moved before it is known whether it can be
returned.
-/

namespace Llxvm.Runtime.RandomAccess

open Memory FileHandle

def eoverflow : BitVec 32 := 139#32
def seekSet : BitVec 32 := 0#32
def seekCur : BitVec 32 := 1#32
def seekEnd : BitVec 32 := 2#32

/-- `Integer.MAX_VALUE`, as a `long`. -/
def intMax : BitVec 64 := 0x7fffffff#64

/-- A `RandomAccessFile`. -/
structure RandomAccessFile where
  length : BitVec 64
  position : BitVec 64

/-- Which methods of the file throw an `IOException` that its state does not explain. -/
structure Faults where
  getFilePointer : Bool
  length : Bool
  seek : Bool

structure SeekState where
  memory : Memory
  file : RandomAccessFile

abbrev SeekM := EStateM TransferThrowable SeekState

def onMemory {α : Type} (x : MemM α) : SeekM α := fun t =>
  match x t.memory with
  | .ok a m => .ok a { t with memory := m }
  | .error e m => .error (.memory e) { t with memory := m }

section file

variable (faults : Faults)

def getFilePointer : SeekM (BitVec 64) := fun t =>
  if faults.getFilePointer then .error .ioException t else .ok t.file.position t

def fileLength : SeekM (BitVec 64) := fun t =>
  if faults.length then .error .ioException t else .ok t.file.length t

/-- A negative position is an error; one behind the end of the file is not. -/
def fileSeek (n : BitVec 64) : SeekM Unit := fun t =>
  if faults.seek ∨ n.toInt < 0 then .error .ioException t
  else .ok () { t with file := { t.file with position := n } }

/-- The block that `seek` tries: it returns from the method, or goes on with `n`. -/
def seekBlock (offset whence : BitVec 32) : SeekM (BitVec 32 ⊕ BitVec 64) := do
  let n := offset.signExtend 64
  if whence = seekSet then
    fileSeek faults n
    return .inr n
  else if whence = seekCur then
    let n := n + (← getFilePointer faults)
    fileSeek faults n
    return .inr n
  else if whence = seekEnd then
    let n := n + (← fileLength faults)
    fileSeek faults n
    return .inr n
  else return .inl (← onMemory (setErrno einval))

def seek (offset whence : BitVec 32) : SeekM (BitVec 32) := do
  match ← catchIOException (seekBlock faults offset whence)
      (do return .inl (← onMemory (setErrno einval))) with
  | .inl r => return r
  | .inr n => if intMax.slt n then onMemory (setErrno eoverflow) else return n.setWidth 32

end file

/-! ## Atomicity -/

/-- The number that the offset is added to. -/
def base (f : RandomAccessFile) (whence : BitVec 32) : Option (BitVec 64) :=
  if whence = seekSet then some 0#64
  else if whence = seekCur then some f.position
  else if whence = seekEnd then some f.length
  else none

/-- The result is the new position, or -1 with `errno` set and the position as it was. -/
def Atomic (f : RandomAccessFile) (offset whence : BitVec 32) :
    EStateM.Result TransferThrowable SeekState (BitVec 32) → Prop
  | .ok r t =>
    (∃ b, base f whence = some b ∧ r.toInt = b.toInt + offset.toInt ∧ 0 ≤ r.toInt ∧
      t.file.position.toInt = r.toInt) ∨
    (r = -1#32 ∧ (∃ value, value ≠ 0#32 ∧ t.memory.ErrnoIs value) ∧
      t.file.position = f.position)
  | .error _ _ => False

/-- The sum with the base, which wraps around. -/
def target (f : RandomAccessFile) (offset whence : BitVec 32) : Option (BitVec 64) :=
  (base f whence).map (offset.signExtend 64 + ·)

/-- A method that is called for the base, or the one that moves the position, throws. -/
def Faults.Hit (faults : Faults) (whence : BitVec 32) : Prop :=
  faults.seek = true ∨ whence = seekCur ∧ faults.getFilePointer = true ∨
    whence = seekEnd ∧ faults.length = true

/-- The position is moved to where it cannot be returned. -/
def Overflows (faults : Faults) (f : RandomAccessFile) (offset whence : BitVec 32) : Prop :=
  ¬ faults.Hit whence ∧
    ∃ n, target f offset whence = some n ∧ 2 ^ 31 ≤ n.toInt ∧ n ≠ f.position

section seek

variable {faults : Faults} {m : Memory} {f : RandomAccessFile} {offset whence : BitVec 32}

/-- With a base the block ends in the move, which nothing but a fault or a negative position
prevents. -/
theorem seekBlock_of_target (faults : Faults) (m : Memory) {n : BitVec 64}
    (h : target f offset whence = some n) :
    (faults.Hit whence ∨ n.toInt < 0) ∧
        seekBlock faults offset whence ⟨m, f⟩ = .error .ioException ⟨m, f⟩ ∨
      ¬ (faults.Hit whence ∨ n.toInt < 0) ∧
        seekBlock faults offset whence ⟨m, f⟩ = .ok (.inr n) ⟨m, { f with position := n }⟩ := by
  have hcur : seekCur ≠ seekSet := by decide
  have hend : seekEnd ≠ seekSet := by decide
  have hend' : seekEnd ≠ seekCur := by decide
  have hsetCur : seekSet ≠ seekCur := by decide
  have hsetEnd : seekSet ≠ seekEnd := by decide
  have hcurEnd : seekCur ≠ seekEnd := by decide
  have hmove : ∀ k : BitVec 64,
      (faults.seek = true ∨ k.toInt < 0) ∧ fileSeek faults k ⟨m, f⟩ = .error .ioException ⟨m, f⟩ ∨
        ¬ (faults.seek = true ∨ k.toInt < 0) ∧
          fileSeek faults k ⟨m, f⟩ = .ok () ⟨m, { f with position := k }⟩ := by
    intro k
    by_cases hk : faults.seek = true ∨ k.toInt < 0
    · exact .inl ⟨hk, by rw [fileSeek, if_pos hk]⟩
    · exact .inr ⟨hk, by rw [fileSeek, if_neg hk]⟩
  unfold target base at h
  split_ifs at h with hset hcur' hend₁ <;>
    simp only [Option.map_some, Option.map_none, Option.some.injEq, reduceCtorEq] at h
  · subst hset h
    have hhit : faults.Hit seekSet ↔ faults.seek = true := by
      simp [Faults.Hit, hsetCur, hsetEnd]
    rw [BitVec.add_zero, hhit]
    simp only [seekBlock, if_true, bind, EStateM.bind]
    rcases hmove (offset.signExtend 64) with ⟨hk, hrun⟩ | ⟨hk, hrun⟩
    · exact .inl ⟨hk, by rw [hrun]⟩
    · exact .inr ⟨hk, by rw [hrun]; rfl⟩
  · subst hcur' h
    have hhit : faults.Hit seekCur ↔ faults.seek = true ∨ faults.getFilePointer = true := by
      simp [Faults.Hit, hcurEnd]
    rw [hhit]
    simp only [seekBlock, hcur, if_true, if_false, bind, EStateM.bind, getFilePointer]
    cases hfault : faults.getFilePointer with
    | true => exact .inl ⟨by simp, by simp⟩
    | false =>
        simp only [Bool.false_eq_true, if_false, or_false]
        rcases hmove (offset.signExtend 64 + f.position) with ⟨hk, hrun⟩ | ⟨hk, hrun⟩
        · exact .inl ⟨hk, by rw [hrun]⟩
        · exact .inr ⟨hk, by rw [hrun]; rfl⟩
  · subst hend₁ h
    have hhit : faults.Hit seekEnd ↔ faults.seek = true ∨ faults.length = true := by
      simp [Faults.Hit, hend']
    rw [hhit]
    simp only [seekBlock, hend, hend', if_true, if_false, bind, EStateM.bind, fileLength]
    cases hfault : faults.length with
    | true => exact .inl ⟨by simp, by simp⟩
    | false =>
        simp only [Bool.false_eq_true, if_false, or_false]
        rcases hmove (offset.signExtend 64 + f.length) with ⟨hk, hrun⟩ | ⟨hk, hrun⟩
        · exact .inl ⟨hk, by rw [hrun]⟩
        · exact .inr ⟨hk, by rw [hrun]; rfl⟩

theorem target_eq_none_iff :
    target f offset whence = none ↔ whence ≠ seekSet ∧ whence ≠ seekCur ∧ whence ≠ seekEnd := by
  unfold target base
  split_ifs <;> simp_all

/-- What the error paths do. -/
theorem atomic_setErrno_iff (f : RandomAccessFile) (offset whence : BitVec 32)
    {g : RandomAccessFile} {value : BitVec 32} (hvalue : value ≠ 0#32) (hm : m.ErrnoReady) :
    Atomic f offset whence (onMemory (setErrno value) ⟨m, g⟩) ↔ g.position = f.position := by
  obtain ⟨m', hset, hvalue', -⟩ := setErrno_ok hm value
  rw [onMemory, hset]
  constructor
  · rintro (⟨b, -, -, hnonneg, -⟩ | ⟨-, -, hposition⟩)
    · exact absurd hnonneg (by decide)
    · exact hposition
  · exact fun hposition => .inr ⟨rfl, ⟨value, hvalue, hvalue'⟩, hposition⟩

/-- A sum that wraps around is negative or too large. -/
theorem toInt_add_of_range {b : BitVec 64} (hlo : 0 ≤ (offset.signExtend 64 + b).toInt)
    (hhi : (offset.signExtend 64 + b).toInt < 2 ^ 31) :
    (offset.signExtend 64 + b).toInt = b.toInt + offset.toInt := by
  have hoffset := offset.toInt_lt
  have hoffset' := offset.le_toInt
  have hb := b.toInt_lt
  have hb' := b.le_toInt
  rw [BitVec.toInt_add, BitVec.toInt_signExtend_of_le (by decide)] at *
  rw [Int.bmod_def] at *
  split_ifs at * <;> omega

/-- The position that can be returned is the one the file has. -/
theorem atomic_move {n : BitVec 64} (htarget : target f offset whence = some n)
    (hlo : 0 ≤ n.toInt) (hhi : n.toInt < 2 ^ 31) :
    Atomic f offset whence (.ok (n.setWidth 32) ⟨m, { f with position := n }⟩) := by
  have hint : (n.setWidth 32).toInt = n.toInt := by
    have hnat := BitVec.toInt_eq_toNat_cond n
    have hlt := n.isLt
    have hwidth : (n.setWidth 32).toNat = n.toNat := by
      rw [BitVec.toNat_setWidth]
      split at hnat <;> omega
    rw [BitVec.toInt_eq_toNat_of_lt (by split at hnat <;> omega), hwidth]
    split at hnat <;> omega
  unfold target at htarget
  obtain ⟨b, hb, rfl⟩ := Option.map_eq_some_iff.mp htarget
  exact .inl ⟨b, hb, by rw [hint, toInt_add_of_range hlo hhi], by rw [hint]; exact hlo, hint.symm⟩

theorem onMemory_setErrno (hm : m.ErrnoReady) (value : BitVec 32) (g : RandomAccessFile) :
    ∃ m', onMemory (setErrno value) ⟨m, g⟩ = .ok (-1#32) ⟨m', g⟩ := by
  obtain ⟨m', hset, -⟩ := setErrno_ok hm value
  exact ⟨m', by rw [onMemory, hset]⟩

/-- Both ways to `EINVAL`. -/
theorem seek_einval (hm : m.ErrnoReady)
    (h : target f offset whence = none ∨
      seekBlock faults offset whence ⟨m, f⟩ = .error .ioException ⟨m, f⟩) :
    seek faults offset whence ⟨m, f⟩ = onMemory (setErrno einval) ⟨m, f⟩ := by
  obtain ⟨m', hset⟩ := onMemory_setErrno hm einval f
  rcases h with hnone | hio
  · obtain ⟨hset', hcur, hend⟩ := target_eq_none_iff.mp hnone
    have hblock : seekBlock faults offset whence ⟨m, f⟩ = .ok (.inl (-1#32)) ⟨m', f⟩ := by
      simp only [seekBlock, hset', hcur, hend, if_false, bind, EStateM.bind, hset]
      rfl
    simp only [seek, bind, EStateM.bind, catchIOException, hblock, hset]
    rfl
  · simp only [seek, bind, EStateM.bind, catchIOException, hio, hset]
    rfl

theorem seek_of_move {n : BitVec 64}
    (h : seekBlock faults offset whence ⟨m, f⟩ = .ok (.inr n) ⟨m, { f with position := n }⟩) :
    seek faults offset whence ⟨m, f⟩ =
      if intMax.slt n then onMemory (setErrno eoverflow) ⟨m, { f with position := n }⟩
      else .ok (n.setWidth 32) ⟨m, { f with position := n }⟩ := by
  simp only [seek, bind, EStateM.bind, catchIOException, h]
  split <;> rfl

end seek

/-- A failed `seek` leaves the position alone unless it has found out too late that the position
is not an `int`. -/
theorem seek_atomic_iff (m : Memory) (hm : m.ErrnoReady) (faults : Faults) (f : RandomAccessFile)
    (offset whence : BitVec 32) :
    Atomic f offset whence (seek faults offset whence ⟨m, f⟩) ↔
      ¬ Overflows faults f offset whence := by
  have heinval : einval ≠ 0#32 := by decide
  have hkept := (atomic_setErrno_iff f offset whence (g := f) heinval hm).mpr rfl
  cases htarget : target f offset whence with
  | none =>
      rw [seek_einval hm (.inl htarget)]
      refine iff_of_true hkept ?_
      rintro ⟨-, n, hn, -⟩
      rw [htarget] at hn
      cases hn
  | some n =>
      have hoverflows : Overflows faults f offset whence ↔
          ¬ faults.Hit whence ∧ 2 ^ 31 ≤ n.toInt ∧ n ≠ f.position := by
        simp [Overflows, htarget]
      rw [hoverflows]
      rcases seekBlock_of_target faults m htarget with
        ⟨hio, hblock⟩ | ⟨hmove, hblock⟩
      · rw [seek_einval hm (.inr hblock)]
        refine iff_of_true hkept ?_
        rintro ⟨hhit, hlarge, -⟩
        rcases hio with h | h
        · exact hhit h
        · omega
      · rw [not_or, not_lt] at hmove
        have hmax : intMax.slt n = true ↔ 2 ^ 31 ≤ n.toInt := by
          have hint : intMax.toInt = 2 ^ 31 - 1 := by decide
          rw [BitVec.slt_iff_toInt_lt, hint]
          omega
        rw [seek_of_move hblock]
        by_cases hlarge : 2 ^ 31 ≤ n.toInt
        · -- the file has been moved
          rw [if_pos (hmax.mpr hlarge), atomic_setErrno_iff _ _ _ (by decide) hm]
          exact ⟨fun hposition hbad => hbad.2.2 hposition,
            fun hgood => by_contra fun hne => hgood ⟨hmove.1, hlarge, hne⟩⟩
        · rw [if_neg (mt hmax.mp hlarge)]
          exact iff_of_true (atomic_move htarget hmove.2 (not_le.mp hlarge))
            fun h => hlarge h.2.1

/-- One byte forward from the beginning. -/
theorem seek_atomic_one :
    Atomic ⟨10#64, 0#64⟩ 1#32 seekCur
      (seek ⟨false, false, false⟩ 1#32 seekCur ⟨Memory.initial, ⟨10#64, 0#64⟩⟩) := by
  refine (seek_atomic_iff Memory.initial FileTable.errnoReady_initial ⟨false, false, false⟩
    ⟨10#64, 0#64⟩ 1#32 seekCur).mpr ?_
  rintro ⟨-, n, hn, hlarge, -⟩
  have htarget : target ⟨10#64, 0#64⟩ 1#32 seekCur = some 1#64 := by decide
  rw [htarget] at hn
  cases hn
  exact absurd hlarge (by decide)

/-- One byte behind the greatest `int` the result is -1, and the file is there. -/
theorem seek_not_atomic :
    ¬ Atomic ⟨0x80000001#64, 0x7fffffff#64⟩ 1#32 seekCur
      (seek ⟨false, false, false⟩ 1#32 seekCur
        ⟨Memory.initial, ⟨0x80000001#64, 0x7fffffff#64⟩⟩) := by
  have htarget : target ⟨0x80000001#64, 0x7fffffff#64⟩ 1#32 seekCur = some 0x80000000#64 := by
    decide
  rcases seekBlock_of_target ⟨false, false, false⟩ Memory.initial htarget with
    ⟨hio, -⟩ | ⟨-, hblock⟩
  · exact absurd hio (by simp [Faults.Hit])
  · rw [seek_of_move hblock, if_pos (by decide),
      atomic_setErrno_iff _ _ _ (by decide) FileTable.errnoReady_initial]
    decide

end Llxvm.Runtime.RandomAccess
