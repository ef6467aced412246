import Mathlib
import Llxvm.Runtime.FlatMemory

/-!
# File descriptors

`llxvm.runtime.IO`: a table of file handles and the number of descriptors that have been
opened.  Only `close` looks whether its argument is an open descriptor, and no number is given
out a second time.
-/

namespace Llxvm.Runtime

open LittleEndian

/-! ## The table -/

def openMax : ℕ := 1 <<< 10
def ebadf : BitVec 32 := 9#32
def enfile : BitVec 32 := 23#32
def eio : BitVec 32 := 5#32
def oCreat : BitVec 32 := 0x0200#32

inductive FileThrowable where
  | memory (e : Throwable)
  | nullPointer
  | arrayIndexOutOfBounds (index : ℤ)
  | negativeArraySize
  deriving DecidableEq

/-- The static fields of class `IO`, next to the memory. -/
structure FileProcess (H : Type) where
  fileDescriptors : ℕ → Option H
  numFileDescriptors : ℕ
  memory : Memory

abbrev FileM (H : Type) := EStateM FileThrowable (FileProcess H)

namespace Memory

/-- The pointer that `Error.errno(int)` stores to is valid. -/
def ErrnoReady (m : Memory) : Prop :=
  ∃ cell m', errnoCell m = .ok cell m' ∧ m'.errno = some cell ∧ m'.Mapped cell.toNat ∧
    InPage cell.toNat 4

/-- The value of `errno`. -/
def ErrnoIs (m : Memory) (value : BitVec 32) : Prop :=
  ∃ cell, m.errno = some cell ∧ m.Holds cell.toNat (leBytes 4 value)

theorem setErrno_ok {m : Memory} (h : m.ErrnoReady) (value : BitVec 32) :
    ∃ m', setErrno value m = .ok (-1#32) m' ∧ m'.ErrnoIs value ∧ m'.ErrnoReady := by
  obtain ⟨cell, m₁, hcell, herrno, hm, hp⟩ := h
  have hp' : InPage cell.toNat (leBytes 4 value).length := by simpa using hp
  have hstore : storeBytes cell (leBytes 4 value) m₁ =
      .ok () (m₁.write cell.toNat (leBytes 4 value)) := storeBytes_ok hm hp'
  refine ⟨m₁.write cell.toNat (leBytes 4 value), ?_, ⟨cell, herrno, holds_write hm hp'⟩, cell,
    m₁.write cell.toNat (leBytes 4 value), ?_, herrno, (mapped_write ..).mpr hm, hp⟩
  · simp only [setErrno, bind, EStateM.bind, hcell, storeInt, hstore]
    rfl
  · simp only [errnoCell, bind, EStateM.bind, get, getThe, MonadStateOf.get, EStateM.get,
      write_errno, herrno]
    rfl

end Memory

/-- Whatever a call does to the memory, `errno` can still be set. -/
def KeepsErrno {α : Type} (x : MemM α) : Prop :=
  ∀ m, m.ErrnoReady →
    match x m with
    | .ok _ m' => m'.ErrnoReady
    | .error _ m' => m'.ErrnoReady

/-- The file system at the time of a call, and what the handles do then.  A handle that is
closed may throw an `IOException`, which is `none`. -/
structure FileSystem (H : Type) where
  openPath : List (BitVec 8) → BitVec 32 → Option (BitVec 32) → MemM (Option H)
  read : H → BitVec 32 → BitVec 32 → MemM (BitVec 32)
  write : H → BitVec 32 → BitVec 32 → MemM (BitVec 32)
  seek : H → BitVec 32 → BitVec 32 → MemM (BitVec 32)
  close : H → MemM (Option Unit)
  openPath_keeps : ∀ name flags mode, KeepsErrno (openPath name flags mode)
  read_keeps : ∀ h buf count, KeepsErrno (read h buf count)
  write_keeps : ∀ h buf count, KeepsErrno (write h buf count)
  seek_keeps : ∀ h offset whence, KeepsErrno (seek h offset whence)
  close_keeps : ∀ h, KeepsErrno (close h)

namespace FileTable

variable {H : Type}

def liftMemory {α : Type} (x : MemM α) : FileM H α := fun p =>
  match x p.memory with
  | .ok a m => .ok a { p with memory := m }
  | .error e m => .error (.memory e) { p with memory := m }

/-- The loop of `load_string`.  Before the loop has read the whole memory the array that it
doubles has become too large. -/
def loadBytes : ℕ → BitVec 32 → FileM H (List (BitVec 8))
  | 0, _ => throw .negativeArraySize
  | fuel + 1, addr => do
    let b ← liftMemory (Memory.loadI8 addr)
    if b = 0#8 then return [] else return b :: (← loadBytes fuel (addr + 1#32))

/-- `load_string`; the name is handed to the file system as its bytes. -/
def loadString (addr : BitVec 32) : FileM H (List (BitVec 8)) := loadBytes memSize addr

def putFileHandle (fileHandle : H) : FileM H (BitVec 32) := do
  let p ← get
  if openMax ≤ p.numFileDescriptors then liftMemory (Memory.setErrno enfile)
  else
    set { p with
      numFileDescriptors := p.numFileDescriptors + 1
      fileDescriptors := Function.update p.fileDescriptors p.numFileDescriptors (some fileHandle) }
    return BitVec.ofNat 32 p.numFileDescriptors

/-- The first half of `open`: the file system is asked for a handle. -/
def openHandle (fs : FileSystem H) (pathname flags args : BitVec 32) : FileM H (Option H) := do
  let name ← loadString pathname
  if flags &&& oCreat ≠ 0#32 then
    let mode ← liftMemory (Memory.loadI32 args)
    liftMemory (fs.openPath name flags (some mode))
  else liftMemory (fs.openPath name flags none)

/-- `IO.open`. -/
def openFile (fs : FileSystem H) (pathname flags args : BitVec 32) : FileM H (BitVec 32) := do
  match ← openHandle fs pathname flags args with
  | none => return -1#32
  | some fileHandle => putFileHandle fileHandle

/-- The array access of `getFileHandle`, and the call of a method of the handle. -/
def getFileHandle (fd : BitVec 32) : FileM H H := do
  if 0 ≤ fd.toInt ∧ fd.toInt < openMax then
    match (← get).fileDescriptors fd.toNat with
    | none => throw .nullPointer
    | some fileHandle => return fileHandle
  else throw (.arrayIndexOutOfBounds fd.toInt)

def read (fs : FileSystem H) (fd buf count : BitVec 32) : FileM H (BitVec 32) := do
  liftMemory (fs.read (← getFileHandle fd) buf count)

def write (fs : FileSystem H) (fd buf count : BitVec 32) : FileM H (BitVec 32) := do
  liftMemory (fs.write (← getFileHandle fd) buf count)

def lseek (fs : FileSystem H) (fd offset whence : BitVec 32) : FileM H (BitVec 32) := do
  liftMemory (fs.seek (← getFileHandle fd) offset whence)

/-- `close(int)`. -/
def close (fs : FileSystem H) (fd : BitVec 32) : FileM H (BitVec 32) := do
  if fd.toInt < 0 ∨ openMax ≤ fd.toInt then liftMemory (Memory.setErrno ebadf)
  else
    match (← get).fileDescriptors fd.toNat with
    | none => liftMemory (Memory.setErrno ebadf)
    | some fileHandle =>
      match ← liftMemory (fs.close fileHandle) with
      | none => liftMemory (Memory.setErrno eio)
      | some () =>
        modify fun p =>
          { p with fileDescriptors := Function.update p.fileDescriptors fd.toNat none }
        return 0#32

/-- The state after the static initialiser. -/
def initial (m : Memory) (stdin stdout stderr : H) : FileProcess H where
  fileDescriptors fd :=
    if fd = 0 then some stdin
    else if fd = 1 then some stdout
    else if fd = 2 then some stderr
    else none
  numFileDescriptors := 3
  memory := m

/-! ## Calls -/

inductive Call where
  | openFile (pathname flags args : BitVec 32)
  | read (fd buf count : BitVec 32)
  | write (fd buf count : BitVec 32)
  | lseek (fd offset whence : BitVec 32)
  | close (fd : BitVec 32)

def Call.exec (fs : FileSystem H) : Call → FileM H (BitVec 32)
  | openFile pathname flags args => FileTable.openFile fs pathname flags args
  | read fd buf count => FileTable.read fs fd buf count
  | write fd buf count => FileTable.write fs fd buf count
  | lseek fd offset whence => FileTable.lseek fs fd offset whence
  | close fd => FileTable.close fs fd

/-- The descriptor that a call is given. -/
def Call.descriptor : Call → Option (BitVec 32)
  | openFile _ _ _ => none
  | read fd _ _ => some fd
  | write fd _ _ => some fd
  | lseek fd _ _ => some fd
  | close fd => some fd

def stateAfter {α : Type} : EStateM.Result FileThrowable (FileProcess H) α → FileProcess H
  | .ok _ p => p
  | .error _ p => p

/-- The descriptors that are open after a call, from what the call has returned. -/
def opened (g : Finset (BitVec 32)) (call : Call) :
    EStateM.Result FileThrowable (FileProcess H) (BitVec 32) → Finset (BitVec 32)
  | .error _ _ => g
  | .ok r _ =>
      match call with
      | .openFile _ _ _ => if r = -1#32 then g else insert r g
      | .close fd => if r = 0#32 then g.erase fd else g
      | _ => g

/-- The file system opens the file. -/
def Opens (fs : FileSystem H) (p : FileProcess H) : Call → Prop
  | .openFile pathname flags args => ∃ h p', openHandle fs pathname flags args p = .ok (some h) p'
  | _ => False

/-- What POSIX says about a call, when the descriptors in `g` are open. -/
structure Posix (fs : FileSystem H) (p : FileProcess H) (g : Finset (BitVec 32)) (call : Call) :
    Prop where
  fresh : ∀ fd p', call.descriptor = none → call.exec fs p = .ok fd p' → fd ≠ -1#32 →
    fd ∉ g ∧ fd.toNat < openMax
  full : ∀ p', Opens fs p call → call.exec fs p = .ok (-1#32) p' →
    p'.memory.ErrnoIs enfile ∧ openMax ≤ g.card
  bad : ∀ fd ∈ call.descriptor, fd ∉ g → ∃ p', call.exec fs p = .ok (-1#32) p' ∧
    p'.memory.ErrnoIs ebadf ∧ p'.fileDescriptors = p.fileDescriptors

/-- A file is not opened when all numbers have been given out, unless all descriptors are
open, and data is moved through open descriptors only. -/
def Fits (fs : FileSystem H) (p : FileProcess H) (g : Finset (BitVec 32)) (call : Call) : Prop :=
  match call with
  | .openFile _ _ _ => Opens fs p call → p.numFileDescriptors < openMax ∨ openMax ≤ g.card
  | .read fd _ _ => fd ∈ g
  | .write fd _ _ => fd ∈ g
  | .lseek fd _ _ => fd ∈ g
  | .close _ => True

/-- All calls of a run are as `P` says. -/
def EachCall (P : FileSystem H → FileProcess H → Finset (BitVec 32) → Call → Prop) :
    List (FileSystem H × Call) → FileProcess H → Finset (BitVec 32) → Prop
  | [], _, _ => True
  | (fs, call) :: calls, p, g =>
      P fs p g call ∧ EachCall P calls (stateAfter (call.exec fs p))
        (opened g call (call.exec fs p))

/-! ## The invariant -/

/-- The table has a handle for the open descriptors, and for none that has not been given
out. -/
structure Inv (p : FileProcess H) (g : Finset (BitVec 32)) : Prop where
  ready : p.memory.ErrnoReady
  count : p.numFileDescriptors ≤ openMax
  unused : ∀ i, p.numFileDescriptors ≤ i → p.fileDescriptors i = none
  mem_iff : ∀ fd : BitVec 32, fd ∈ g ↔ (p.fileDescriptors fd.toNat).isSome

/-- The table is as before, and `errno` can be set. -/
structure Kept (p p' : FileProcess H) : Prop where
  fileDescriptors : p'.fileDescriptors = p.fileDescriptors
  numFileDescriptors : p'.numFileDescriptors = p.numFileDescriptors
  ready : p'.memory.ErrnoReady

def KeepsTable {α : Type} (x : FileM H α) : Prop :=
  ∀ p, p.memory.ErrnoReady → Kept p (stateAfter (x p))

section keeps

variable {α β : Type}

theorem Kept.trans {p₁ p₂ p₃ : FileProcess H} (h : Kept p₁ p₂) (h' : Kept p₂ p₃) : Kept p₁ p₃ :=
  ⟨h'.fileDescriptors.trans h.fileDescriptors, h'.numFileDescriptors.trans h.numFileDescriptors,
    h'.ready⟩

theorem keepsTable_pure (a : α) : KeepsTable (pure a : FileM H α) := fun _ h => ⟨rfl, rfl, h⟩

theorem keepsTable_throw (e : FileThrowable) : KeepsTable (throw e : FileM H α) :=
  fun _ h => ⟨rfl, rfl, h⟩

theorem KeepsTable.bind {x : FileM H α} {f : α → FileM H β} (hx : KeepsTable x)
    (hf : ∀ a, KeepsTable (f a)) : KeepsTable (x >>= f) := by
  intro p hp
  have hfirst := hx p hp
  cases hrun : x p with
  | ok a p' =>
      rw [hrun] at hfirst
      simp only [Bind.bind, EStateM.bind, hrun]
      exact hfirst.trans (hf a p' hfirst.ready)
  | error e p' =>
      rw [hrun] at hfirst
      simp only [Bind.bind, EStateM.bind, hrun]
      exact hfirst

theorem keepsTable_liftMemory {x : MemM α} (hx : KeepsErrno x) :
    KeepsTable (liftMemory x : FileM H α) := by
  intro p hp
  have hready := hx p.memory hp
  unfold liftMemory
  cases hrun : x p.memory with
  | ok a m =>
      rw [hrun] at hready
      exact ⟨rfl, rfl, hready⟩
  | error e m =>
      rw [hrun] at hready
      exact ⟨rfl, rfl, hready⟩

theorem keepsErrno_loadBytes (addr : BitVec 32) (n : ℕ) : KeepsErrno (Memory.loadBytes addr n) := by
  intro m hm
  rcases Memory.loadBytes_cases m addr n with ⟨bs, hload, -⟩ | ⟨-, e, herr⟩
  · rw [hload]
    exact hm
  · rw [herr]
    exact hm

theorem keepsErrno_map {x : MemM α} (h : KeepsErrno x) (f : α → β) :
    KeepsErrno (do return f (← x)) := by
  intro m hm
  have hx := h m hm
  cases hrun : x m with
  | ok a m' =>
      rw [hrun] at hx
      simp only [bind, EStateM.bind, hrun]
      exact hx
  | error e m' =>
      rw [hrun] at hx
      simp only [bind, EStateM.bind, hrun]
      exact hx

theorem keepsTable_loadBytes (fuel : ℕ) (addr : BitVec 32) :
    KeepsTable (loadBytes fuel addr : FileM H (List (BitVec 8))) := by
  induction fuel generalizing addr with
  | zero => exact keepsTable_throw _
  | succ fuel ih =>
      refine (keepsTable_liftMemory
        (keepsErrno_map (keepsErrno_loadBytes addr 1) _)).bind fun b => ?_
      split_ifs
      · exact keepsTable_pure _
      · exact (ih _).bind fun bs => keepsTable_pure _

theorem keepsTable_openHandle (fs : FileSystem H) (pathname flags args : BitVec 32) :
    KeepsTable (openHandle fs pathname flags args) := by
  refine (keepsTable_loadBytes _ _).bind fun name => ?_
  split_ifs
  · exact (keepsTable_liftMemory (keepsErrno_map (keepsErrno_loadBytes args 4) _)).bind fun mode =>
      keepsTable_liftMemory (fs.openPath_keeps _ _ _)
  · exact keepsTable_liftMemory (fs.openPath_keeps _ _ _)

theorem keepsTable_getFileHandle (fd : BitVec 32) : KeepsTable (getFileHandle fd : FileM H H) := by
  intro p hp
  unfold getFileHandle
  split_ifs
  · simp only [bind, EStateM.bind, get, getThe, MonadStateOf.get, EStateM.get]
    cases p.fileDescriptors fd.toNat with
    | none => exact keepsTable_throw _ p hp
    | some h => exact keepsTable_pure _ p hp
  · exact keepsTable_throw _ p hp

theorem keepsTable_exec (fs : FileSystem H) {call : Call} {fd : BitVec 32}
    (hfd : call.descriptor = some fd) (hcall : ∀ fd, call ≠ .close fd) :
    KeepsTable (call.exec fs) := by
  cases call with
  | openFile pathname flags args => cases hfd
  | read fd buf count =>
      exact (keepsTable_getFileHandle fd).bind fun h => keepsTable_liftMemory (fs.read_keeps _ _ _)
  | write fd buf count =>
      exact (keepsTable_getFileHandle fd).bind fun h => keepsTable_liftMemory (fs.write_keeps _ _ _)
  | lseek fd offset whence =>
      exact (keepsTable_getFileHandle fd).bind fun h => keepsTable_liftMemory (fs.seek_keeps _ _ _)
  | close fd => exact (hcall fd rfl).elim

end keeps

/-! ## One call -/

section step

variable {fs : FileSystem H} {p : FileProcess H} {g : Finset (BitVec 32)}

theorem Inv.of_kept {p' : FileProcess H} (h : Inv p g) (hkept : Kept p p') : Inv p' g where
  ready := hkept.ready
  count := hkept.numFileDescriptors ▸ h.count
  unused := by
    rw [hkept.fileDescriptors, hkept.numFileDescriptors]
    exact h.unused
  mem_iff := by
    rw [hkept.fileDescriptors]
    exact h.mem_iff

theorem Inv.lt_of_mem (h : Inv p g) {fd : BitVec 32} (hfd : fd ∈ g) : fd.toNat < openMax := by
  by_contra hge
  have hnone := h.unused fd.toNat (h.count.trans (by omega))
  have hsome := (h.mem_iff fd).mp hfd
  simp [hnone] at hsome

theorem Inv.none_of_not_mem (h : Inv p g) {fd : BitVec 32} (hfd : fd ∉ g) :
    p.fileDescriptors fd.toNat = none := by
  rwa [h.mem_iff, Bool.not_eq_true, Option.isSome_eq_false_iff, Option.isNone_iff_eq_none] at hfd

theorem liftMemory_setErrno (hready : p.memory.ErrnoReady) (value : BitVec 32) :
    ∃ p', (liftMemory (Memory.setErrno value) : FileM H (BitVec 32)) p = .ok (-1#32) p' ∧
      p'.memory.ErrnoIs value ∧ Kept p p' := by
  obtain ⟨m', hset, hvalue, hready'⟩ := Memory.setErrno_ok hready value
  refine ⟨{ p with memory := m' }, ?_, hvalue, rfl, rfl, hready'⟩
  simp only [liftMemory, hset]

theorem toInt_bounds {fd : BitVec 32} (hfd : fd.toNat < openMax) :
    0 ≤ fd.toInt ∧ fd.toInt < openMax := by
  have hint : fd.toInt = fd.toNat := by
    rw [BitVec.toInt_eq_toNat_of_lt]
    simp only [openMax, Nat.reduceShiftLeft] at hfd
    omega
  rw [hint]
  exact ⟨Int.natCast_nonneg _, by exact_mod_cast hfd⟩

theorem openFile_cases (fs : FileSystem H) (h : Inv p g) (pathname flags args : BitVec 32) :
    (¬ Opens fs p (.openFile pathname flags args) ∧
        ((∃ p', openFile fs pathname flags args p = .ok (-1#32) p' ∧ Kept p p') ∨
          ∃ e p', openFile fs pathname flags args p = .error e p' ∧ Kept p p')) ∨
      (Opens fs p (.openFile pathname flags args) ∧
        ((p.numFileDescriptors < openMax ∧ ∃ fileHandle p' p'',
            openFile fs pathname flags args p =
              .ok (BitVec.ofNat 32 p.numFileDescriptors) p'' ∧
            Kept p p' ∧ p'' = { p' with
              numFileDescriptors := p.numFileDescriptors + 1
              fileDescriptors :=
                Function.update p.fileDescriptors p.numFileDescriptors (some fileHandle) }) ∨
          (p.numFileDescriptors = openMax ∧ ∃ p', openFile fs pathname flags args p =
            .ok (-1#32) p' ∧ p'.memory.ErrnoIs enfile ∧ Kept p p'))) := by
  have hkept := keepsTable_openHandle fs pathname flags args p h.ready
  cases hrun : openHandle fs pathname flags args p with
  | error e p' =>
      rw [hrun] at hkept
      refine .inl ⟨fun ⟨_, _, hopens⟩ => ?_, .inr ⟨e, p', ?_, hkept⟩⟩
      · simp [hrun] at hopens
      · simp only [openFile, bind, EStateM.bind, hrun]
  | ok answer p' =>
      rw [hrun] at hkept
      cases answer with
      | none =>
          refine .inl ⟨fun ⟨_, _, hopens⟩ => ?_, .inl ⟨p', ?_, hkept⟩⟩
          · simp [hrun] at hopens
          · simp only [openFile, bind, EStateM.bind, hrun]
            rfl
      | some fileHandle =>
          refine .inr ⟨⟨fileHandle, p', hrun⟩, ?_⟩
          have hopen : openFile fs pathname flags args p = putFileHandle fileHandle p' := by
            simp only [openFile, bind, EStateM.bind, hrun]
          have hcount := hkept.numFileDescriptors
          have htable := hkept.fileDescriptors
          change p'.numFileDescriptors = _ at hcount
          change p'.fileDescriptors = _ at htable
          rw [hopen]
          by_cases hfull : p.numFileDescriptors < openMax
          · refine .inl ⟨hfull, fileHandle, p', _, ?_, hkept, rfl⟩
            simp only [putFileHandle, bind, EStateM.bind, get, getThe, MonadStateOf.get,
              EStateM.get, hcount, htable, if_neg (not_le.mpr hfull), set, EStateM.set]
            rfl
          · have hcountmax := h.count
            obtain ⟨p'', hset, hvalue, hkept'⟩ := liftMemory_setErrno hkept.ready enfile
            refine .inr ⟨by omega, p'', ?_, hvalue, hkept.trans hkept'⟩
            simp only [putFileHandle, bind, EStateM.bind, get, getThe, MonadStateOf.get,
              EStateM.get, hcount, if_pos (not_lt.mp hfull)]
            exact hset

theorem close_cases (fs : FileSystem H) (h : Inv p g) (fd : BitVec 32) :
    (fd ∉ g ∧ ∃ p', close fs fd p = .ok (-1#32) p' ∧ p'.memory.ErrnoIs ebadf ∧ Kept p p') ∨
      (fd ∈ g ∧ ((∃ p', close fs fd p = .ok (-1#32) p' ∧ Kept p p') ∨
        (∃ e p', close fs fd p = .error e p' ∧ Kept p p') ∨
        ∃ p' p'', close fs fd p = .ok 0#32 p'' ∧ Kept p p' ∧ p'' = { p' with
          fileDescriptors := Function.update p'.fileDescriptors fd.toNat none })) := by
  by_cases hfd : fd ∈ g
  · refine .inr ⟨hfd, ?_⟩
    obtain ⟨h₀, hmax⟩ := toInt_bounds (h.lt_of_mem hfd)
    obtain ⟨fileHandle, hhandle⟩ := Option.isSome_iff_exists.mp ((h.mem_iff fd).mp hfd)
    have hkept : Kept p (stateAfter ((liftMemory (fs.close fileHandle) : FileM H _) p)) :=
      keepsTable_liftMemory (fs.close_keeps fileHandle) p h.ready
    have hclose : close fs fd p = ((do
        match ← liftMemory (fs.close fileHandle) with
        | none => liftMemory (Memory.setErrno eio)
        | some () =>
          modify fun p =>
            { p with fileDescriptors := Function.update p.fileDescriptors fd.toNat none }
          return 0#32) : FileM H (BitVec 32)) p := by
      simp only [close, if_neg (by omega : ¬ (fd.toInt < 0 ∨ (openMax : ℤ) ≤ fd.toInt)), bind,
        EStateM.bind, get, getThe, MonadStateOf.get, EStateM.get, hhandle]
    rw [hclose]
    simp only [bind, EStateM.bind]
    cases hrun : (liftMemory (fs.close fileHandle) : FileM H _) p with
    | error e p' =>
        rw [hrun] at hkept
        exact .inr (.inl ⟨e, p', rfl, hkept⟩)
    | ok answer p' =>
        rw [hrun] at hkept
        cases answer with
        | none =>
            obtain ⟨p'', hset, -, hkept'⟩ := liftMemory_setErrno hkept.ready eio
            exact .inl ⟨p'', hset, hkept.trans hkept'⟩
        | some u => exact .inr (.inr ⟨p', _, rfl, hkept, rfl⟩)
  · obtain ⟨p', hset, hvalue, hkept⟩ := liftMemory_setErrno h.ready ebadf
    refine .inl ⟨hfd, p', ?_, hvalue, hkept⟩
    unfold close
    split_ifs
    · exact hset
    · simp only [bind, EStateM.bind, get, getThe, MonadStateOf.get, EStateM.get,
        h.none_of_not_mem hfd]
      exact hset

theorem toNat_ofNat_count {n : ℕ} (hn : n < openMax) : (BitVec.ofNat 32 n).toNat = n := by
  simp only [openMax, Nat.reduceShiftLeft] at hn
  rw [BitVec.toNat_ofNat]
  omega

theorem ofNat_count_ne {n : ℕ} (hn : n < openMax) : BitVec.ofNat 32 n ≠ -1#32 := by
  intro heq
  have hnat := congrArg BitVec.toNat heq
  rw [toNat_ofNat_count hn] at hnat
  simp only [openMax, Nat.reduceShiftLeft] at hn
  rw [hnat] at hn
  exact absurd hn (by decide)

/-- Every call keeps the invariant, whatever it is given. -/
theorem Inv.step (h : Inv p g) (fs : FileSystem H) (call : Call) :
    Inv (stateAfter (call.exec fs p)) (opened g call (call.exec fs p)) := by
  cases call with
  | openFile pathname flags args =>
      have hcases := openFile_cases fs h pathname flags args
      simp only [Call.exec]
      rcases hcases with
        ⟨-, ⟨p', hrun, hkept⟩ | ⟨e, p', hrun, hkept⟩⟩ |
        ⟨-, ⟨hlt, fileHandle, p', p'', hrun, hkept, rfl⟩ | ⟨-, p', hrun, -, hkept⟩⟩
      · rw [hrun]
        exact h.of_kept hkept
      · rw [hrun]
        exact h.of_kept hkept
      · rw [hrun]
        simp only [stateAfter, opened, if_neg (ofNat_count_ne hlt)]
        refine ⟨hkept.ready, hlt, fun i hi => ?_, fun fd => ?_⟩
        · dsimp only at hi ⊢
          rw [Function.update_of_ne (by omega)]
          exact h.unused i (by omega)
        · rw [Finset.mem_insert, h.mem_iff]
          by_cases heq : fd.toNat = p.numFileDescriptors
          · have hfd : fd = BitVec.ofNat 32 p.numFileDescriptors :=
              BitVec.eq_of_toNat_eq (heq.trans (toNat_ofNat_count hlt).symm)
            dsimp only
            rw [heq, Function.update_self]
            simp [hfd]
          · have hfd : fd ≠ BitVec.ofNat 32 p.numFileDescriptors :=
              fun hfd => heq (hfd ▸ toNat_ofNat_count hlt)
            simp [Function.update_of_ne heq, hfd]
      · rw [hrun]
        exact h.of_kept hkept
  | close fd =>
      have hcases := close_cases fs h fd
      simp only [Call.exec]
      rcases hcases with ⟨hfd, p', hrun, -, hkept⟩ |
        ⟨hfd, ⟨p', hrun, hkept⟩ | ⟨e, p', hrun, hkept⟩ |
        ⟨p', p'', hrun, hkept, rfl⟩⟩
      · rw [hrun]
        exact h.of_kept hkept
      · rw [hrun]
        exact h.of_kept hkept
      · rw [hrun]
        exact h.of_kept hkept
      · rw [hrun]
        have h' := h.of_kept hkept
        refine ⟨h'.ready, h'.count, fun i hi => ?_, fun fd' => ?_⟩
        · dsimp only [stateAfter]
          by_cases heq : i = fd.toNat
          · rw [heq, Function.update_self]
          · rw [Function.update_of_ne heq]
            exact h'.unused i hi
        · simp only [stateAfter, opened, if_true, Finset.mem_erase, h'.mem_iff]
          by_cases heq : fd' = fd
          · simp [heq]
          · have hne : fd'.toNat ≠ fd.toNat := fun hnat => heq (BitVec.eq_of_toNat_eq hnat)
            simp [heq, Function.update_of_ne hne]
  | read fd buf count =>
      have hkept := @keepsTable_exec _ fs (.read fd buf count) _ rfl (by simp) p h.ready
      cases hrun : (Call.read fd buf count).exec fs p <;> rw [hrun] at hkept <;>
        exact h.of_kept hkept
  | write fd buf count =>
      have hkept := @keepsTable_exec _ fs (.write fd buf count) _ rfl (by simp) p h.ready
      cases hrun : (Call.write fd buf count).exec fs p <;> rw [hrun] at hkept <;>
        exact h.of_kept hkept
  | lseek fd offset whence =>
      have hkept := @keepsTable_exec _ fs (.lseek fd offset whence) _ rfl (by simp) p h.ready
      cases hrun : (Call.lseek fd offset whence).exec fs p <;> rw [hrun] at hkept <;>
        exact h.of_kept hkept

/-- Without a handle, data is not moved: an exception is thrown. -/
theorem exec_of_not_mem (h : Inv p g) {fd : BitVec 32} (hfd : fd ∉ g)
    {f : H → FileM H (BitVec 32)} :
    ∃ e p', (getFileHandle fd >>= f) p = .error e p' := by
  unfold getFileHandle
  split_ifs
  · refine ⟨.nullPointer, p, ?_⟩
    simp only [bind, EStateM.bind, get, getThe, MonadStateOf.get, EStateM.get,
      h.none_of_not_mem hfd]
    rfl
  · exact ⟨_, p, rfl⟩

theorem posix_iff_of_descriptor (h : Inv p g) {call : Call} {fd : BitVec 32}
    (hfd : call.descriptor = some fd) {f : H → FileM H (BitVec 32)}
    (hexec : call.exec fs = getFileHandle fd >>= f) (hopens : ¬ Opens fs p call) :
    Posix fs p g call ↔ fd ∈ g := by
  constructor
  · intro hposix
    by_contra hmem
    obtain ⟨p', hrun, -⟩ := hposix.bad fd (by simp [hfd]) hmem
    obtain ⟨e, p'', herr⟩ := exec_of_not_mem h hmem (f := f)
    rw [hexec, herr] at hrun
    cases hrun
  · intro hmem
    refine ⟨fun _ _ hnone => ?_, fun _ hopens' => (hopens hopens').elim, fun fd' hfd' hnot => ?_⟩
    · simp [hfd] at hnone
    · obtain rfl : fd = fd' := by simpa [hfd] using hfd'
      exact (hnot hmem).elim

/-- One call is as POSIX says exactly when it fits. -/
theorem posix_iff_fits (h : Inv p g) (call : Call) : Posix fs p g call ↔ Fits fs p g call := by
  cases call with
  | openFile pathname flags args =>
      have hcases := openFile_cases fs h pathname flags args
      constructor
      · intro hposix hopens
        rcases hcases with ⟨hnot, -⟩ | ⟨-, ⟨hlt, -⟩ | ⟨-, p', hrun, -⟩⟩
        · exact (hnot hopens).elim
        · exact .inl hlt
        · exact .inr (hposix.full p' hopens hrun).2
      · intro hfits
        refine ⟨fun fd p₁ _ hrun₁ hne => ?_, fun p₁ hopens hrun₁ => ?_, fun fd hfd => ?_⟩
        · rcases hcases with
            ⟨-, ⟨p', hrun, -⟩ | ⟨e, p', hrun, -⟩⟩ |
            ⟨-, ⟨hlt, fileHandle, p', p'', hrun, -⟩ | ⟨-, p', hrun, -⟩⟩ <;>
            cases hrun₁.symm.trans hrun
          · exact (hne rfl).elim
          · refine ⟨fun hmem => ?_, (toNat_ofNat_count hlt).trans_lt hlt⟩
            rw [h.mem_iff, toNat_ofNat_count hlt, h.unused _ le_rfl] at hmem
            cases hmem
          · exact (hne rfl).elim
        · rcases hcases with ⟨hnot, -⟩ | ⟨-, ⟨hlt, fileHandle, p', p'', hrun, -⟩ |
            ⟨hmax, p', hrun, hvalue, -⟩⟩
          · exact (hnot hopens).elim
          · have heq := hrun₁.symm.trans hrun
            exact (ofNat_count_ne hlt (EStateM.Result.ok.inj heq).1.symm).elim
          · cases hrun₁.symm.trans hrun
            rcases hfits hopens with hlt | hcard
            · omega
            · exact ⟨hvalue, hcard⟩
        · cases hfd
  | close fd =>
      refine ⟨fun _ => trivial, fun _ => .mk ?_ ?_ fun fd' hfd' hnot => ?_⟩
      · intro _ _ hnone
        cases hnone
      · intro _ hopens
        exact False.elim hopens
      obtain rfl : fd = fd' := by simpa [Call.descriptor] using hfd'
      rcases close_cases fs h fd with ⟨-, p', hrun, hvalue, hkept⟩ | ⟨hmem, -⟩
      · exact ⟨p', hrun, hvalue, hkept.fileDescriptors⟩
      · exact (hnot hmem).elim
  | read fd buf count => exact posix_iff_of_descriptor h rfl rfl (fun h => h)
  | write fd buf count => exact posix_iff_of_descriptor h rfl rfl (fun h => h)
  | lseek fd offset whence => exact posix_iff_of_descriptor h rfl rfl (fun h => h)

end step

/-! ## Runs -/

theorem inv_initial {m : Memory} (hm : m.ErrnoReady) (stdin stdout stderr : H) :
    Inv (initial m stdin stdout stderr) {0#32, 1#32, 2#32} where
  ready := hm
  count := by simp [initial, openMax]
  unused := by
    intro i hi
    have h3 : 3 ≤ i := hi
    simp only [initial]
    rw [if_neg (by omega), if_neg (by omega), if_neg (by omega)]
  mem_iff := by
    intro fd
    simp only [initial, Finset.mem_insert, Finset.mem_singleton, ← BitVec.toNat_inj]
    split_ifs <;> simp_all

theorem eachCall_posix_iff {p : FileProcess H} {g : Finset (BitVec 32)} (h : Inv p g)
    (calls : List (FileSystem H × Call)) :
    EachCall Posix calls p g ↔ EachCall Fits calls p g := by
  induction calls generalizing p g with
  | nil => exact Iff.rfl
  | cons e calls ih =>
      obtain ⟨fs, call⟩ := e
      exact and_congr (posix_iff_fits h call) (ih (h.step fs call))

/-- The calls of a run are as POSIX says exactly when they all fit. -/
theorem run_posix_iff (m : Memory) (hm : m.ErrnoReady) (stdin stdout stderr : H)
    (calls : List (FileSystem H × Call)) :
    EachCall Posix calls (initial m stdin stdout stderr) {0#32, 1#32, 2#32} ↔
      EachCall Fits calls (initial m stdin stdout stderr) {0#32, 1#32, 2#32} :=
  eachCall_posix_iff (inv_initial hm stdin stdout stderr) calls

theorem errnoReady_initial : Memory.initial.ErrnoReady :=
  ⟨8#32, _, rfl, rfl, rfl,
    Memory.inPage_of_dvd (n := 4) (by decide) (by decide) le_rfl⟩

theorem errnoReady_write {m : Memory} (h : m.ErrnoReady) (a : ℕ) (bs : List (BitVec 8)) :
    (m.write a bs).ErrnoReady := by
  obtain ⟨cell, m', hcell, herrno, hmapped, hp⟩ := h
  refine ⟨cell, m'.write a bs, ?_, herrno, (Memory.mapped_write ..).mpr hmapped, hp⟩
  simp only [Memory.errnoCell, bind, EStateM.bind, get, getThe, MonadStateOf.get, EStateM.get,
    Memory.write_errno] at hcell ⊢
  cases hm : m.errno with
  | some cell' =>
      rw [hm] at hcell
      cases hcell
      rfl
  | none =>
      rw [hm] at hcell
      cases hcell
      rfl

theorem keepsErrno_storeBytes (addr : BitVec 32) (bs : List (BitVec 8)) :
    KeepsErrno (Memory.storeBytes addr bs) := by
  intro m hm
  rcases Memory.storeBytes_cases m addr bs with ⟨-, -, hstore⟩ | ⟨e, herr⟩
  · rw [hstore]
    exact errnoReady_write hm _ _
  · rw [herr]
    exact hm

/-- A file system with the file `a`, which has an `h` to read; what is written to it is lost. -/
def oneFile : FileSystem Unit where
  openPath name _ _ := pure (if name = [0x61#8] then some () else none)
  read _ buf _ := do
    Memory.storeBytes buf [0x68#8]
    return 1#32
  write _ buf _ := do
    let _ ← Memory.loadBytes buf 1
    return 1#32
  seek _ _ _ := pure 0#32
  close _ := pure (some ())
  openPath_keeps _ _ _ := fun _ hm => hm
  read_keeps _ buf _ := keepsErrno_map (keepsErrno_storeBytes buf _) fun _ => 1#32
  write_keeps _ buf _ := keepsErrno_map (keepsErrno_loadBytes buf 1) fun _ => 1#32
  seek_keeps _ _ _ := fun _ hm => hm
  close_keeps _ := fun _ hm => hm

/-- The memory has the name of the file. -/
def namedMemory : Memory := Memory.initial.write 0x200 [0x61#8, 0#8]

/-- The file is opened and read, what it has goes to the standard output, and it is closed twice. -/
theorem run_posix_open_read_close :
    EachCall Posix [(oneFile, .openFile 0x200#32 0#32 0#32), (oneFile, .read 3#32 0x300#32 1#32),
      (oneFile, .write 1#32 0x300#32 1#32), (oneFile, .close 3#32), (oneFile, .close 3#32)]
      (initial namedMemory () () ()) {0#32, 1#32, 2#32} := by
  refine (run_posix_iff namedMemory (errnoReady_write errnoReady_initial _ _) () () () _).mpr
    ⟨fun _ => .inl ?_, ?_, ?_, trivial, trivial, trivial⟩
  · decide
  · change 3#32 ∈ insert 3#32 {0#32, 1#32, 2#32}
    decide
  · change 1#32 ∈ insert 3#32 {0#32, 1#32, 2#32}
    decide

/-- A read from a number that is not an open descriptor throws an exception. -/
theorem run_not_posix_read :
    ¬ EachCall Posix [(oneFile, .read 5#32 0#32 0#32)] (initial Memory.initial () () ())
      {0#32, 1#32, 2#32} := by
  rintro ⟨hposix, -⟩
  obtain ⟨p', hrun, -⟩ := hposix.bad 5#32 rfl (by decide)
  cases hrun

end FileTable

end Llxvm.Runtime
