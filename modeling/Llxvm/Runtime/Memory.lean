import Llxvm.Lib.Align
import Llxvm.Lib.LittleEndian

/-!
# The paged virtual memory

`llxvm.runtime.Memory`: an array of 64 KiB pages, some of them absent, together
with the cursors of its three allocators.  A Java method is an `EStateM` action,
so that what it wrote before throwing stays written.
-/

namespace Llxvm.Runtime

open Align LittleEndian

/-- The exceptions the runtime and the translated code can raise. -/
inductive Throwable where
  | segmentationFault (addr : BitVec 32)
  | indexOutOfBounds
  | arithmeticException
  | linkageError
  | jump (id value : BitVec 32)
  deriving DecidableEq

/-- A 64 KiB buffer, as the function from offsets to bytes. -/
abbrev Page := ℕ → BitVec 8

abbrev memSize : ℕ := 2 ^ 30
abbrev dataSize : ℕ := 2 ^ 20
abbrev stackSize : ℕ := 2 ^ 20
abbrev pageShift : ℕ := 16
abbrev pageSize : ℕ := 2 ^ 16
/-- `pages.length`. -/
abbrev pageCount : ℕ := 2 ^ 14
abbrev alignment : BitVec 32 := 8#32

/-- The static fields of `Memory`, and the pointer that class `Error` allocates
when it is initialised. -/
structure Memory where
  pages : ℕ → Option Page
  dataEnd : BitVec 32
  heapEnd : BitVec 32
  framePointer : BitVec 32
  stackPointer : BitVec 32
  stackDepth : BitVec 32
  errno : Option (BitVec 32)

/-- A static method over the memory. -/
abbrev MemM := EStateM Throwable Memory

namespace Memory

/-! ## Address arithmetic -/

def alignOffsetUp (offset align : BitVec 32) : BitVec 32 :=
  ((offset - 1#32) &&& ~~~(align - 1#32)) + align

def alignOffsetDown (offset align : BitVec 32) : BitVec 32 :=
  offset &&& ~~~(align - 1#32)

def createPage : Page := fun _ => 0#8

/-- The state after the static initialiser.  `NULL = allocateData()` has already
taken the first block of the data segment. -/
def initial : Memory where
  pages i :=
    if i ≤ (dataSize - 1) >>> pageShift ∨
        ((memSize - stackSize) >>> pageShift ≤ i ∧ i ≤ (memSize - 1) >>> pageShift) then
      some createPage
    else none
  dataEnd := alignOffsetUp (0#32 + 1#32) alignment
  heapEnd := BitVec.ofNat 32 dataSize
  framePointer := BitVec.ofNat 32 memSize
  stackPointer := BitVec.ofNat 32 memSize
  stackDepth := 0#32
  errno := none

/-! ## Pages -/

/-- The page of an address.  The array access is out of bounds above `memSize`;
an absent page is a Java `null`. -/
def getPage (addr : BitVec 32) : MemM (Option Page) := fun m =>
  if (addr >>> pageShift).toNat < pageCount then
    .ok (m.pages (addr >>> pageShift).toNat) m
  else .error (.segmentationFault addr) m

def getOffset (addr : BitVec 32) : ℕ := (addr &&& BitVec.ofNat 32 (pageSize - 1)).toNat

/-- `ByteBuffer.put…`: the bytes from `off` on are overwritten. -/
def putBytes (page : Page) (off : ℕ) (bs : List (BitVec 8)) : Page := fun i =>
  if off ≤ i ∧ i < off + bs.length then bs.getD (i - off) 0#8 else page i

/-- `ByteBuffer.get…`: the `n` bytes from `off` on. -/
def getBytes (page : Page) (off n : ℕ) : List (BitVec 8) :=
  (List.range n).map fun i => page (off + i)

/-- The body that all `store` overloads share: the value's bytes are handed to the
buffer of the page of the first byte, whose limit is the end of the page. -/
def storeBytes (addr : BitVec 32) (bs : List (BitVec 8)) : MemM Unit := do
  match ← getPage addr with
  | none => throw (.segmentationFault addr)
  | some page =>
    if getOffset addr + bs.length ≤ pageSize then
      modify fun m => { m with
        pages := Function.update m.pages (addr >>> pageShift).toNat
          (some (putBytes page (getOffset addr) bs)) }
    else throw .indexOutOfBounds

/-- The body that all `load_*` methods share. -/
def loadBytes (addr : BitVec 32) (n : ℕ) : MemM (List (BitVec 8)) := do
  match ← getPage addr with
  | none => throw (.segmentationFault addr)
  | some page =>
    if getOffset addr + n ≤ pageSize then return getBytes page (getOffset addr) n
    else throw .indexOutOfBounds

/-! ## Typed stores and loads

Floating point values are their raw IEEE bits. -/

def storeBoolean (addr : BitVec 32) (value : Bool) : MemM Unit :=
  storeBytes addr [if value then 1#8 else 0#8]

def storeByte (addr : BitVec 32) (value : BitVec 8) : MemM Unit := storeBytes addr (leBytes 1 value)
def storeShort (addr : BitVec 32) (value : BitVec 16) : MemM Unit :=
  storeBytes addr (leBytes 2 value)
def storeInt (addr value : BitVec 32) : MemM Unit := storeBytes addr (leBytes 4 value)
def storeLong (addr : BitVec 32) (value : BitVec 64) : MemM Unit :=
  storeBytes addr (leBytes 8 value)
def storeFloat (addr value : BitVec 32) : MemM Unit := storeBytes addr (leBytes 4 value)
def storeDouble (addr : BitVec 32) (value : BitVec 64) : MemM Unit :=
  storeBytes addr (leBytes 8 value)

def loadI1 (addr : BitVec 32) : MemM Bool := do
  return ofLeBytes 8 (← loadBytes addr 1) != 0#8

def loadI8 (addr : BitVec 32) : MemM (BitVec 8) := do return ofLeBytes 8 (← loadBytes addr 1)
def loadI16 (addr : BitVec 32) : MemM (BitVec 16) := do return ofLeBytes 16 (← loadBytes addr 2)
def loadI32 (addr : BitVec 32) : MemM (BitVec 32) := do return ofLeBytes 32 (← loadBytes addr 4)
def loadI64 (addr : BitVec 32) : MemM (BitVec 64) := do return ofLeBytes 64 (← loadBytes addr 8)
def loadF32 (addr : BitVec 32) : MemM (BitVec 32) := do return ofLeBytes 32 (← loadBytes addr 4)
def loadF64 (addr : BitVec 32) : MemM (BitVec 64) := do return ofLeBytes 64 (← loadBytes addr 8)

/-! ## Allocators -/

def allocateData (size : BitVec 32) : MemM (BitVec 32) := do
  let addr := (← get).dataEnd
  modify fun m => { m with dataEnd := alignOffsetUp (m.dataEnd + size) alignment }
  return addr

def allocateStack (size : BitVec 32) : MemM (BitVec 32) := do
  modify fun m => { m with stackPointer := alignOffsetDown (m.stackPointer - size) alignment }
  return (← get).stackPointer

def storeStackInt (value : BitVec 32) : MemM (BitVec 32) := do
  let addr ← allocateStack 4#32
  storeInt addr value
  return addr

def createStackFrame : MemM Unit := do
  let prevFramePointer := (← get).framePointer
  modify fun m => { m with framePointer := m.stackPointer }
  let _ ← storeStackInt prevFramePointer
  modify fun m => { m with stackDepth := m.stackDepth + 1#32 }

def destroyStackFrame : MemM Unit := do
  modify fun m => { m with stackPointer := m.framePointer }
  let prevFramePointer ← loadI32 ((← get).stackPointer - alignment)
  modify fun m => { m with
    framePointer := prevFramePointer
    stackDepth := m.stackDepth - 1#32 }

/-- The loop of `destroyStackFrames`, by the number of iterations left. -/
def destroyStackFramesLoop : ℕ → MemM Unit
  | 0 => pure ()
  | n + 1 => do
    destroyStackFrame
    destroyStackFramesLoop n

def destroyStackFrames (n : BitVec 32) : MemM Unit := destroyStackFramesLoop n.toInt.toNat

def getStackDepth : MemM (BitVec 32) := do return (← get).stackDepth

/-- The cell of `errno`, which the first use of class `Error` allocates. -/
def errnoCell : MemM (BitVec 32) := do
  match (← get).errno with
  | some cell => return cell
  | none =>
    let cell ← allocateData 4#32
    modify fun m => { m with errno := some cell }
    return cell

/-- `Error.errno(int)`. -/
def setErrno (value : BitVec 32) : MemM (BitVec 32) := do
  let cell ← errnoCell
  storeInt cell value
  return -1#32

def enomem : BitVec 32 := 12#32

/-- The loop of `sbrk`: absent pages in the given range of indices are created. -/
def mapPages (m : Memory) (bottom last : ℕ) : Memory :=
  { m with pages := fun i =>
      if bottom ≤ i ∧ i ≤ last ∧ m.pages i = none then some createPage else m.pages i }

def sbrk (increment : BitVec 32) : MemM (BitVec 32) := do
  let prevHeapEnd := (← get).heapEnd
  if (BitVec.ofNat 32 (memSize - stackSize)).slt (prevHeapEnd + increment) ∨
      (prevHeapEnd + increment).slt (BitVec.ofNat 32 dataSize) then
    setErrno enomem
  else do
    modify fun m => { m with heapEnd := m.heapEnd + increment }
    modify fun m => mapPages m (prevHeapEnd >>> pageShift).toNat
      ((m.heapEnd - 1#32) >>> pageShift).toNat
    return prevHeapEnd

/-! ## Filling -/

/-- The loop of `memset`, by the number of iterations left. -/
def memsetLoop (val : BitVec 8) : ℕ → BitVec 32 → MemM Unit
  | 0, _ => pure ()
  | n + 1, i => do
    storeByte i val
    memsetLoop val n (i + 1#32)

def memset (dest : BitVec 32) (val : BitVec 8) (len : BitVec 32) : MemM Unit :=
  memsetLoop val ((dest + len).toInt - dest.toInt).toNat dest

def zero (dest len : BitVec 32) : MemM (BitVec 32) := do
  memset dest 0#8 len
  return dest + len

end Memory

end Llxvm.Runtime
