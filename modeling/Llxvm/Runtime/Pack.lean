import Llxvm.Runtime.FlatMemory

/-!
# Packed argument lists

`Memory.pack` lays a list of primitive values out with natural alignment.  Two
other methods walk the same area again: `unpack(int, Class[])` for calls through
a function pointer, and `unpack(int, int)` for the `va_arg` macro of `stdarg.h`.
The three walkers are compared through one list of slots.
-/

namespace Llxvm.Runtime

open Align LittleEndian

/-- The primitive types other than `char`. -/
inductive PrimType where
  | boolean | byte | short | int | long | float | double
  deriving DecidableEq

/-- A value of primitive type; floating point values are their raw bits. -/
inductive Prim where
  | boolean (value : Bool)
  | byte (value : BitVec 8)
  | short (value : BitVec 16)
  | int (value : BitVec 32)
  | long (value : BitVec 64)
  | float (value : BitVec 32)
  | double (value : BitVec 64)
  deriving DecidableEq

namespace PrimType

def size : PrimType → ℕ
  | boolean => 1
  | byte => 1
  | short => 2
  | int => 4
  | long => 8
  | float => 4
  | double => 8

theorem size_cases (t : PrimType) : t.size = 1 ∨ t.size = 2 ∨ t.size = 4 ∨ t.size = 8 := by
  cases t <;> decide

theorem size_pos (t : PrimType) : 0 < t.size := by cases t <;> decide

theorem size_dvd_pageSize (t : PrimType) : t.size ∣ pageSize := by cases t <;> decide

end PrimType

/-- `ReflectionUtils.sizeOf`. -/
def sizeOf : PrimType → BitVec 32
  | .boolean => 1#32
  | .byte => 1#32
  | .short => 2#32
  | .int => 4#32
  | .long => 8#32
  | .float => 4#32
  | .double => 8#32

@[simp] theorem toNat_sizeOf (t : PrimType) : (sizeOf t).toNat = t.size := by cases t <;> rfl

namespace Prim

def type : Prim → PrimType
  | boolean _ => .boolean
  | byte _ => .byte
  | short _ => .short
  | int _ => .int
  | long _ => .long
  | float _ => .float
  | double _ => .double

/-- The bytes a store of the value writes. -/
def bytes : Prim → List (BitVec 8)
  | boolean value => [if value then 1#8 else 0#8]
  | byte value => leBytes 1 value
  | short value => leBytes 2 value
  | int value => leBytes 4 value
  | long value => leBytes 8 value
  | float value => leBytes 4 value
  | double value => leBytes 8 value

@[simp] theorem length_bytes (v : Prim) : v.bytes.length = v.type.size := by
  cases v <;> simp [bytes, type, PrimType.size]

/-- The value of a type that a load finds in the given bytes. -/
def ofBytes : PrimType → List (BitVec 8) → Prim
  | .boolean, bs => .boolean (ofLeBytes 8 bs != 0#8)
  | .byte, bs => .byte (ofLeBytes 8 bs)
  | .short, bs => .short (ofLeBytes 16 bs)
  | .int, bs => .int (ofLeBytes 32 bs)
  | .long, bs => .long (ofLeBytes 64 bs)
  | .float, bs => .float (ofLeBytes 32 bs)
  | .double, bs => .double (ofLeBytes 64 bs)

theorem ofBytes_bytes (v : Prim) : ofBytes v.type v.bytes = v := by
  cases v with
  | boolean value => cases value <;> rfl
  | byte value => exact congrArg byte (ofLeBytes_leBytes (by decide) value)
  | short value => exact congrArg short (ofLeBytes_leBytes (by decide) value)
  | int value => exact congrArg int (ofLeBytes_leBytes (by decide) value)
  | long value => exact congrArg long (ofLeBytes_leBytes (by decide) value)
  | float value => exact congrArg float (ofLeBytes_leBytes (by decide) value)
  | double value => exact congrArg double (ofLeBytes_leBytes (by decide) value)

theorem bytes_ne_nil (v : Prim) : v.bytes ≠ [] := by
  apply List.ne_nil_of_length_pos
  rw [length_bytes]
  exact v.type.size_pos

end Prim

namespace Memory

/-- The overloads of `store`, selected by the type of the value. -/
def store (addr : BitVec 32) : Prim → MemM Unit
  | .boolean value => storeBoolean addr value
  | .byte value => storeByte addr value
  | .short value => storeShort addr value
  | .int value => storeInt addr value
  | .long value => storeLong addr value
  | .float value => storeFloat addr value
  | .double value => storeDouble addr value

def load (addr : BitVec 32) : PrimType → MemM Prim
  | .boolean => do return .boolean (← loadI1 addr)
  | .byte => do return .byte (← loadI8 addr)
  | .short => do return .short (← loadI16 addr)
  | .int => do return .int (← loadI32 addr)
  | .long => do return .long (← loadI64 addr)
  | .float => do return .float (← loadF32 addr)
  | .double => do return .double (← loadF64 addr)

/-- The body that the overloads of `pack` for primitive types share. -/
def packAt (align : BitVec 32) (store : BitVec 32 → MemM Unit) (addr : BitVec 32) :
    MemM (BitVec 32) := do
  let addr := alignOffsetUp addr align
  store addr
  return addr + align

def packBoolean (addr : BitVec 32) (value : Bool) := packAt 1#32 (storeBoolean · value) addr
def packByte (addr : BitVec 32) (value : BitVec 8) := packAt 1#32 (storeByte · value) addr
def packShort (addr : BitVec 32) (value : BitVec 16) := packAt 2#32 (storeShort · value) addr
def packInt (addr value : BitVec 32) := packAt 4#32 (storeInt · value) addr
def packLong (addr : BitVec 32) (value : BitVec 64) := packAt 8#32 (storeLong · value) addr
def packFloat (addr value : BitVec 32) := packAt 4#32 (storeFloat · value) addr
def packDouble (addr : BitVec 32) (value : BitVec 64) := packAt 8#32 (storeDouble · value) addr

def pack (addr : BitVec 32) : Prim → MemM (BitVec 32)
  | .boolean value => packBoolean addr value
  | .byte value => packByte addr value
  | .short value => packShort addr value
  | .int value => packInt addr value
  | .long value => packLong addr value
  | .float value => packFloat addr value
  | .double value => packDouble addr value

/-- A chain of `pack` calls, each at the address the previous one returned. -/
def packAll (addr : BitVec 32) : List Prim → MemM (BitVec 32)
  | [] => pure addr
  | v :: vs => do packAll (← pack addr v) vs

/-- `store(int, byte[])`. -/
def storeArray (addr : BitVec 32) : List (BitVec 8) → MemM Unit
  | [] => pure ()
  | b :: bs => do
    storeByte addr b
    storeArray (addr + 1#32) bs

/-- `pack(int, String)`, from the bytes of the string. -/
def packString (addr : BitVec 32) (bytes : List (BitVec 8)) : MemM (BitVec 32) := do
  storeArray addr bytes
  storeByte (addr + BitVec.ofNat 32 bytes.length) 0#8
  return addr + BitVec.ofNat 32 bytes.length + 1#32

/-- `pack(int, char[])`: each `char` is cut to a byte. -/
def packChars (addr : BitVec 32) (chars : List (BitVec 16)) : MemM (BitVec 32) := do
  storeArray addr (chars.map (BitVec.setWidth 8))
  return addr + BitVec.ofNat 32 chars.length

/-- `unpack(int, Class[])`. -/
def unpackTypes (addr : BitVec 32) : List PrimType → MemM (List Prim)
  | [] => pure []
  | type :: types => do
    let size := sizeOf type
    let addr := alignOffsetUp addr size
    let value ← load addr type
    return value :: (← unpackTypes (addr + size) types)

/-- `unpack(int, int)`: the cell at `addrp` moves past the value. -/
def unpack (addrp size : BitVec 32) : MemM (BitVec 32) := do
  let addr ← loadI32 addrp
  let addr := alignOffsetUp addr size
  storeInt addrp (addr + size)
  return addr

/-- The calls that a sequence of `va_arg(ap, type)` makes on the cell of `ap`. -/
def vaArgs (addrp : BitVec 32) : List PrimType → MemM (List (BitVec 32))
  | [] => pure []
  | type :: types => do
    let addr ← unpack addrp (sizeOf type)
    return addr :: (← vaArgs addrp types)

/-! ## Slots -/

/-- Where a walk from `a` with natural alignment meets the values of the types. -/
def slots (a : ℕ) : List PrimType → List (ℕ × PrimType)
  | [] => []
  | t :: ts => (alignUp a t.size, t) :: slots (alignUp a t.size + t.size) ts

/-- The first address after the last slot. -/
def slotsEnd (a : ℕ) : List PrimType → ℕ
  | [] => a
  | t :: ts => slotsEnd (alignUp a t.size + t.size) ts

/-- All bytes of all slots are in mapped pages. -/
def SlotsMapped (m : Memory) (a : ℕ) (ts : List PrimType) : Prop :=
  ∀ s ∈ slots a ts, ∀ i < s.2.size, m.Mapped (s.1 + i)

instance (m : Memory) (a : ℕ) : Decidable (m.Mapped a) :=
  inferInstanceAs (Decidable ((m.byte a).isSome = true))

instance (m : Memory) (a : ℕ) (ts : List PrimType) : Decidable (m.SlotsMapped a ts) :=
  inferInstanceAs (Decidable (∀ s ∈ slots a ts, ∀ i < s.2.size, m.Mapped (s.1 + i)))

/-- The values stand in the slots of their types. -/
def SlotsHold (m : Memory) : ℕ → List Prim → Prop
  | _, [] => True
  | a, v :: vs => m.Holds (alignUp a v.type.size) v.bytes ∧
      SlotsHold m (alignUp a v.type.size + v.type.size) vs

theorem le_of_mem_slots {a : ℕ} {ts : List PrimType} {s : ℕ × PrimType} (h : s ∈ slots a ts) :
    a ≤ s.1 := by
  induction ts generalizing a with
  | nil => simp [slots] at h
  | cons t ts ih =>
      have hle := le_alignUp a t.size
      rcases List.mem_cons.mp h with rfl | h
      · exact hle
      · exact (hle.trans (Nat.le_add_right _ _)).trans (ih h)

theorem le_slotsEnd (a : ℕ) (ts : List PrimType) : a ≤ slotsEnd a ts := by
  induction ts generalizing a with
  | nil => exact le_rfl
  | cons t ts ih =>
      have hle := le_alignUp a t.size
      exact (hle.trans (Nat.le_add_right _ _)).trans (ih _)

theorem slot_le_slotsEnd {a : ℕ} {ts : List PrimType} {s : ℕ × PrimType} (h : s ∈ slots a ts) :
    s.1 + s.2.size ≤ slotsEnd a ts := by
  induction ts generalizing a with
  | nil => simp [slots] at h
  | cons t ts ih =>
      rcases List.mem_cons.mp h with rfl | h
      · exact le_slotsEnd _ ts
      · exact ih h

theorem slotsEnd_append (a : ℕ) (ts : List PrimType) (t : PrimType) :
    slotsEnd a (ts ++ [t]) = alignUp (slotsEnd a ts) t.size + t.size := by
  induction ts generalizing a with
  | nil => rfl
  | cons u ts ih => exact ih _

/-- A walk from an aligned address is the walk from zero, moved. -/
theorem slotsEnd_add {p : ℕ} (hp : 8 ∣ p) (a : ℕ) (ts : List PrimType) :
    slotsEnd (p + a) ts = p + slotsEnd a ts := by
  induction ts generalizing a with
  | nil => rfl
  | cons t ts ih =>
      have hdvd : t.size ∣ p := by
        rcases t.size_cases with h | h | h | h <;> rw [h] <;> omega
      rw [slotsEnd, slotsEnd, alignUp_add_left a hdvd, Nat.add_assoc, ih]

theorem sum_le_slotsEnd (a : ℕ) (ts : List PrimType) :
    a + (ts.map PrimType.size).sum ≤ slotsEnd a ts := by
  induction ts generalizing a with
  | nil => simp [slotsEnd]
  | cons t ts ih =>
      have hle := le_alignUp a t.size
      have hrest := ih (alignUp a t.size + t.size)
      rw [slotsEnd, List.map_cons, List.sum_cons]
      omega

/-- A walk that ends above an aligned limit has a slot that starts at the limit. -/
theorem exists_slot_at {l : ℕ} (hl : 8 ∣ l) {ts : List PrimType} {a : ℕ} (ha : a ≤ l)
    (h : l < slotsEnd a ts) :
    ∃ before t after, ts = before ++ t :: after ∧ alignUp (slotsEnd a before) t.size = l := by
  induction ts generalizing a with
  | nil => exact absurd h (not_lt.mpr ha)
  | cons t ts ih =>
      have hdvd : t.size ∣ l := by
        rcases t.size_cases with h | h | h | h <;> rw [h] <;> omega
      have hup := alignUp_le t.size_pos ha hdvd
      by_cases hnext : alignUp a t.size + t.size ≤ l
      · obtain ⟨before, u, after, rfl, heq⟩ := ih hnext h
        exact ⟨t :: before, u, after, rfl, heq⟩
      · refine ⟨[], t, ts, rfl, ?_⟩
        rcases hup.lt_or_eq with hlt | heq
        · exact absurd (add_le_of_dvd (dvd_alignUp a t.size_pos) hdvd hlt) hnext
        · exact heq

theorem SlotsMapped.head {m : Memory} {a : ℕ} {t : PrimType} {ts : List PrimType}
    (h : m.SlotsMapped a (t :: ts)) : m.Mapped (alignUp a t.size) :=
  h (alignUp a t.size, t) (by simp [slots]) 0 t.size_pos

theorem SlotsMapped.tail {m : Memory} {a : ℕ} {t : PrimType} {ts : List PrimType}
    (h : m.SlotsMapped a (t :: ts)) : m.SlotsMapped (alignUp a t.size + t.size) ts :=
  fun s hs => h s (List.mem_cons_of_mem _ hs)

theorem SlotsMapped.write {m : Memory} {a x : ℕ} {bs : List (BitVec 8)} {ts : List PrimType}
    (h : m.SlotsMapped a ts) : (m.write x bs).SlotsMapped a ts :=
  fun s hs i hi => (mapped_write m x bs _).mpr (h s hs i hi)

/-- The masking of `alignOffsetUp` computes the slot, as long as it does not wrap around. -/
theorem toNat_alignOffsetUp_of_le {addr : BitVec 32} (t : PrimType) (h : addr.toNat + 8 ≤ 2 ^ 32) :
    (alignOffsetUp addr (sizeOf t)).toNat = alignUp addr.toNat t.size := by
  have hfit : ∀ k ≤ 3, addr.toNat + 2 ^ k ≤ 2 ^ 32 := by
    intro k hk
    have : 2 ^ k ≤ 2 ^ 3 := Nat.pow_le_pow_right (by decide) hk
    omega
  cases t with
  | boolean => exact toNat_alignUp_mask (by decide : 0 < 32) addr (hfit 0 (by decide))
  | byte => exact toNat_alignUp_mask (by decide : 0 < 32) addr (hfit 0 (by decide))
  | short => exact toNat_alignUp_mask (by decide : 1 < 32) addr (hfit 1 (by decide))
  | int => exact toNat_alignUp_mask (by decide : 2 < 32) addr (hfit 2 (by decide))
  | long => exact toNat_alignUp_mask (by decide : 3 < 32) addr (hfit 3 (by decide))
  | float => exact toNat_alignUp_mask (by decide : 2 < 32) addr (hfit 2 (by decide))
  | double => exact toNat_alignUp_mask (by decide : 3 < 32) addr (hfit 3 (by decide))

theorem toNat_alignOffsetUp {addr : BitVec 32} (t : PrimType)
    (h : alignUp addr.toNat t.size < memSize) :
    (alignOffsetUp addr (sizeOf t)).toNat = alignUp addr.toNat t.size := by
  have hle := le_alignUp addr.toNat t.size
  apply toNat_alignOffsetUp_of_le
  simp only [memSize] at h
  omega

theorem toNat_slot_add_size {addr : BitVec 32} (t : PrimType)
    (h : alignUp addr.toNat t.size < memSize) :
    (alignOffsetUp addr (sizeOf t) + sizeOf t).toNat = alignUp addr.toNat t.size + t.size := by
  have hs := t.size_cases
  rw [BitVec.toNat_add, toNat_alignOffsetUp t h, toNat_sizeOf]
  simp only [memSize] at h
  exact Nat.mod_eq_of_lt (by omega)

theorem inPage_slot (a : ℕ) (t : PrimType) : InPage (alignUp a t.size) t.size :=
  inPage_of_dvd t.size_dvd_pageSize (dvd_alignUp a t.size_pos) le_rfl

/-! ## One step of each walker -/

theorem store_eq (addr : BitVec 32) (v : Prim) : store addr v = storeBytes addr v.bytes := by
  cases v <;> rfl

theorem pack_eq (addr : BitVec 32) (v : Prim) :
    pack addr v = packAt (sizeOf v.type) (store · v) addr := by
  cases v <;> rfl

theorem pack_ok {m : Memory} {addr : BitVec 32} {v : Prim}
    (hm : m.Mapped (alignUp addr.toNat v.type.size)) :
    pack addr v m = .ok (alignOffsetUp addr (sizeOf v.type) + sizeOf v.type)
      (m.write (alignUp addr.toNat v.type.size) v.bytes) := by
  have hslot := toNat_alignOffsetUp v.type hm.lt_memSize
  have hp : InPage (alignOffsetUp addr (sizeOf v.type)).toNat v.bytes.length := by
    rw [hslot, Prim.length_bytes]
    exact inPage_slot _ _
  rw [pack_eq]
  simp only [packAt, bind, EStateM.bind, store_eq]
  rw [storeBytes_ok (by rwa [hslot]) hp, hslot]
  rfl

theorem load_eq (addr : BitVec 32) (t : PrimType) :
    load addr t = do return Prim.ofBytes t (← loadBytes addr t.size) := by
  cases t <;>
    simp [load, loadI1, loadI8, loadI16, loadI32, loadI64, loadF32, loadF64, PrimType.size,
      Prim.ofBytes]

/-- Loading at the slot of a value gives the value back. -/
theorem load_ok {m : Memory} {addr : BitVec 32} {v : Prim} (h : m.Holds addr.toNat v.bytes)
    (hp : InPage addr.toNat v.type.size) : load addr v.type m = .ok v m := by
  have hl := loadBytes_ok v.bytes_ne_nil h (by rwa [Prim.length_bytes])
  rw [Prim.length_bytes] at hl
  rw [load_eq]
  simp only [bind, EStateM.bind, hl, Prim.ofBytes_bytes]
  rfl

/-! ## Whole walks -/

/-- What a chain of `pack` calls leaves behind: every value in its slot, and nothing
else changed. -/
theorem packAll_ok {m : Memory} {addr : BitVec 32} {vs : List Prim}
    (hm : m.SlotsMapped addr.toNat (vs.map Prim.type)) :
    ∃ last m', packAll addr vs m = .ok last m' ∧ m'.SlotsHold addr.toNat vs ∧
      m' = { m with pages := m'.pages } ∧ (∀ x, m'.Mapped x ↔ m.Mapped x) ∧
      ∀ x, (∀ s ∈ slots addr.toNat (vs.map Prim.type), x < s.1 ∨ s.1 + s.2.size ≤ x) →
        m'.byte x = m.byte x := by
  induction vs generalizing addr m with
  | nil => exact ⟨addr, m, rfl, trivial, rfl, fun _ => Iff.rfl, fun _ _ => rfl⟩
  | cons v vs ih =>
      have hhead : m.Mapped (alignUp addr.toNat v.type.size) := hm.head
      have hp : InPage (alignUp addr.toNat v.type.size) v.bytes.length := by
        rw [Prim.length_bytes]
        exact inPage_slot _ _
      have hnext := toNat_slot_add_size v.type hhead.lt_memSize
      have htail : (m.write (alignUp addr.toNat v.type.size) v.bytes).SlotsMapped
          (alignOffsetUp addr (sizeOf v.type) + sizeOf v.type).toNat (vs.map Prim.type) := by
        rw [hnext]
        exact SlotsMapped.write hm.tail
      obtain ⟨last, m', hrun, hhold, hregs, hmap, hout⟩ := ih htail
      rw [hnext] at hhold hout
      refine ⟨last, m', ?_, ⟨?_, hhold⟩, hregs, fun x => (hmap x).trans (mapped_write ..), ?_⟩
      · simp only [packAll, bind, EStateM.bind, pack_ok hhead]
        exact hrun
      · -- the later slots are all above this one, so its bytes survive
        intro i hi
        rw [Prim.length_bytes] at hi
        rw [hout _ fun s hs => Or.inl (by have := le_of_mem_slots hs; omega)]
        exact holds_write hhead hp i (by rwa [Prim.length_bytes])
      · intro x hx
        have hx₀ := hx (alignUp addr.toNat v.type.size, v.type) (by simp [slots])
        rw [hout x fun s hs => hx s (List.mem_cons_of_mem _ hs), byte_write hhead hp,
          Prim.length_bytes, if_neg (by dsimp only at hx₀; omega)]

/-! ## Walks that may fail -/

/-- The memory in which a call ends, normally or not. -/
def memoryAfter {α : Type} : EStateM.Result Throwable Memory α → Memory
  | .ok _ m => m
  | .error _ m => m

/-- A `pack` writes to the slot, or throws and leaves the memory alone. -/
theorem pack_cases (m : Memory) {addr : BitVec 32} (ha : addr.toNat + 8 ≤ 2 ^ 32) (v : Prim) :
    (m.Mapped (alignUp addr.toNat v.type.size) ∧
        pack addr v m = .ok (alignOffsetUp addr (sizeOf v.type) + sizeOf v.type)
          (m.write (alignUp addr.toNat v.type.size) v.bytes)) ∨
      ∃ e, pack addr v m = .error e m := by
  rcases storeBytes_cases m (alignOffsetUp addr (sizeOf v.type)) v.bytes with ⟨hm, -⟩ | ⟨e, he⟩
  · rw [toNat_alignOffsetUp_of_le v.type ha] at hm
    exact .inl ⟨hm, pack_ok hm⟩
  · refine .inr ⟨e, ?_⟩
    rw [pack_eq]
    simp only [packAt, bind, EStateM.bind, store_eq, he]

theorem toNat_next_add_le {addr : BitVec 32} (t : PrimType)
    (h : alignUp addr.toNat t.size < memSize) :
    (alignOffsetUp addr (sizeOf t) + sizeOf t).toNat + 8 ≤ 2 ^ 32 := by
  have hs := t.size_cases
  rw [toNat_slot_add_size t h]
  simp only [memSize] at h
  omega

/-- However far the chain gets, it writes to the slots only. -/
theorem packAll_frame {m : Memory} {addr : BitVec 32} (ha : addr.toNat + 8 ≤ 2 ^ 32)
    (vs : List Prim) :
    (memoryAfter (packAll addr vs m)).stackPointer = m.stackPointer ∧
      ∀ x, (∀ s ∈ slots addr.toNat (vs.map Prim.type), x < s.1 ∨ s.1 + s.2.size ≤ x) →
        (memoryAfter (packAll addr vs m)).byte x = m.byte x := by
  induction vs generalizing addr m with
  | nil => exact ⟨rfl, fun _ _ => rfl⟩
  | cons v vs ih =>
      rcases pack_cases m ha v with ⟨hm, hpack⟩ | ⟨e, hpack⟩
      · have hp : InPage (alignUp addr.toNat v.type.size) v.bytes.length := by
          rw [Prim.length_bytes]
          exact inPage_slot _ _
        have hnext := toNat_slot_add_size v.type hm.lt_memSize
        obtain ⟨hsp, hout⟩ := ih (m := m.write (alignUp addr.toNat v.type.size) v.bytes)
          (toNat_next_add_le v.type hm.lt_memSize)
        simp only [packAll, bind, EStateM.bind, hpack]
        refine ⟨hsp, fun x hx => ?_⟩
        have hx₀ := hx (alignUp addr.toNat v.type.size, v.type) (by simp [slots])
        rw [hnext] at hout
        rw [hout x fun s hs => hx s (List.mem_cons_of_mem _ hs), byte_write hm hp,
          Prim.length_bytes, if_neg (by dsimp only at hx₀; omega)]
      · simp only [packAll, bind, EStateM.bind, hpack]
        exact ⟨rfl, fun _ _ => rfl⟩

/-- Above the memory the chain fails at once. -/
theorem packAll_above {m : Memory} {addr : BitVec 32} (ha : addr.toNat + 8 ≤ 2 ^ 32)
    (htop : memSize ≤ addr.toNat) (vs : List Prim) : memoryAfter (packAll addr vs m) = m := by
  cases vs with
  | nil => rfl
  | cons v vs =>
      rcases pack_cases m ha v with ⟨hm, -⟩ | ⟨e, hpack⟩
      · have hle := le_alignUp addr.toNat v.type.size
        have hlt := hm.lt_memSize
        omega
      · simp only [packAll, bind, EStateM.bind, hpack, memoryAfter]

/-- The first byte of a slot that the chain reaches has been written. -/
theorem packAll_writes {m : Memory} {addr : BitVec 32} (ha : addr.toNat + 8 ≤ 2 ^ 32)
    {before : List Prim} {v : Prim} (after : List Prim)
    (hm : m.SlotsMapped addr.toNat ((before ++ [v]).map Prim.type)) :
    (memoryAfter (packAll addr (before ++ v :: after) m)).byte
        (alignUp (slotsEnd addr.toNat (before.map Prim.type)) v.type.size) = v.bytes[0]? := by
  induction before generalizing addr m with
  | nil =>
      have hhead : m.Mapped (alignUp addr.toNat v.type.size) := hm.head
      have hp : InPage (alignUp addr.toNat v.type.size) v.bytes.length := by
        rw [Prim.length_bytes]
        exact inPage_slot _ _
      have hpos := v.type.size_pos
      have hnext := toNat_slot_add_size v.type hhead.lt_memSize
      simp only [List.nil_append, packAll, bind, EStateM.bind, pack_ok hhead, List.map_nil,
        slotsEnd]
      rw [(packAll_frame (toNat_next_add_le v.type hhead.lt_memSize) after).2]
      · exact holds_write hhead hp 0 (by rwa [Prim.length_bytes])
      · intro s hs
        have hle := le_of_mem_slots hs
        omega
  | cons u before ih =>
      have hhead : m.Mapped (alignUp addr.toNat u.type.size) := hm.head
      have hnext := toNat_slot_add_size u.type hhead.lt_memSize
      have htail : (m.write (alignUp addr.toNat u.type.size) u.bytes).SlotsMapped
          (alignOffsetUp addr (sizeOf u.type) + sizeOf u.type).toNat
          ((before ++ [v]).map Prim.type) := by
        rw [hnext]
        exact SlotsMapped.write hm.tail
      have hrest := ih (toNat_next_add_le u.type hhead.lt_memSize) htail
      rw [hnext] at hrest
      simp only [List.cons_append, packAll, bind, EStateM.bind, pack_ok hhead, List.map_cons,
        slotsEnd]
      exact hrest

theorem unpackTypes_ok {m : Memory} {addr : BitVec 32} {vs : List Prim}
    (hm : m.SlotsMapped addr.toNat (vs.map Prim.type)) (h : m.SlotsHold addr.toNat vs) :
    unpackTypes addr (vs.map Prim.type) m = .ok vs m := by
  induction vs generalizing addr with
  | nil => rfl
  | cons v vs ih =>
      have hlt := hm.head.lt_memSize
      have hnext := toNat_slot_add_size v.type hlt
      have hload : load (alignOffsetUp addr (sizeOf v.type)) v.type m = .ok v m := by
        apply load_ok <;> rw [toNat_alignOffsetUp v.type hlt]
        · exact h.1
        · exact inPage_slot _ _
      have hrest : unpackTypes (alignOffsetUp addr (sizeOf v.type) + sizeOf v.type)
          (vs.map Prim.type) m = .ok vs m :=
        ih (by rw [hnext]; exact hm.tail) (by rw [hnext]; exact h.2)
      simp only [List.map_cons, unpackTypes, bind, EStateM.bind, hload, hrest]
      rfl

/-- The cell of a `va_list`: four bytes of one page that hold the given address. -/
structure Cell (m : Memory) (addrp value : BitVec 32) : Prop where
  holds : m.Holds addrp.toNat (leBytes 4 value)
  inPage : InPage addrp.toNat 4

theorem cell_of_loadI32 {m m' : Memory} {addrp value : BitVec 32}
    (h : loadI32 addrp m = .ok value m') : m.Cell addrp value := by
  rcases loadBytes_cases m addrp 4 with ⟨bs, hload, hlen, -, hp, hb⟩ | ⟨-, e, herr⟩
  · simp only [loadI32, bind, EStateM.bind, hload] at h
    cases h
    refine ⟨?_, hp⟩
    have : leBytes 4 (ofLeBytes 32 bs) = bs := leBytes_ofLeBytes (by decide) hlen
    rwa [this]
  · simp [loadI32, bind, EStateM.bind, herr] at h

theorem loadI32_ok {m : Memory} {addr value : BitVec 32}
    (h : m.Holds addr.toNat (leBytes 4 value)) (haddr : 4 ∣ addr.toNat) :
    loadI32 addr m = .ok value m := by
  have hload : loadBytes addr 4 m = .ok (leBytes 4 value) m := by
    simpa using loadBytes_ok (by simp [leBytes]) h
      (by rw [length_leBytes]; exact inPage_of_dvd (by decide) haddr le_rfl)
  simp only [loadI32, bind, EStateM.bind, hload]
  rw [ofLeBytes_leBytes (by decide)]
  rfl

/-- A cell disjoint from all slots. -/
def CellApart (addrp a : ℕ) (ts : List PrimType) : Prop :=
  ∀ s ∈ slots a ts, addrp + 4 ≤ s.1 ∨ s.1 + s.2.size ≤ addrp

instance (addrp a : ℕ) (ts : List PrimType) : Decidable (CellApart addrp a ts) :=
  inferInstanceAs (Decidable (∀ s ∈ slots a ts, addrp + 4 ≤ s.1 ∨ s.1 + s.2.size ≤ addrp))

theorem Holds.packAll {m m' : Memory} {addr last : BitVec 32} {vs : List Prim} {x : ℕ}
    {bs : List (BitVec 8)} (h : m.Holds x bs) (hm : m.SlotsMapped addr.toNat (vs.map Prim.type))
    (hrun : packAll addr vs m = .ok last m') (hd : CellApart x addr.toNat (vs.map Prim.type))
    (hbs : bs.length = 4) : m'.Holds x bs := by
  obtain ⟨_, _, hrun', -, -, -, hout⟩ := packAll_ok hm
  cases hrun.symm.trans hrun'
  intro i hi
  rw [hout _ fun s hs => (hd s hs).imp (by omega) (by omega)]
  exact h i hi

theorem SlotsHold.write_of_apart {m : Memory} {x a : ℕ} {bs : List (BitVec 8)} {vs : List Prim}
    (hm : m.Mapped x) (hp : InPage x bs.length) (hbs : bs.length = 4)
    (hd : CellApart x a (vs.map Prim.type)) (h : m.SlotsHold a vs) :
    (m.write x bs).SlotsHold a vs := by
  induction vs generalizing a with
  | nil => trivial
  | cons v vs ih =>
      have hv := hd (alignUp a v.type.size, v.type) (by simp [slots])
      refine ⟨h.1.write_of_disjoint hm hp ?_, ih (fun s hs => hd s (List.mem_cons_of_mem _ hs)) h.2⟩
      rw [Prim.length_bytes, hbs]
      exact hv.symm

theorem unpack_ok {m : Memory} {addrp cur : BitVec 32} (t : PrimType) (hc : m.Cell addrp cur) :
    unpack addrp (sizeOf t) m = .ok (alignOffsetUp cur (sizeOf t))
      (m.write addrp.toNat (leBytes 4 (alignOffsetUp cur (sizeOf t) + sizeOf t))) := by
  have hload : loadBytes addrp 4 m = .ok (leBytes 4 cur) m := by
    simpa using loadBytes_ok (by simp [leBytes]) hc.holds (by simpa using hc.inPage)
  have hm : m.Mapped addrp.toNat := by simpa using hc.holds.mapped (i := 0) (by simp)
  have hstore : storeBytes addrp (leBytes 4 (alignOffsetUp cur (sizeOf t) + sizeOf t)) m =
      .ok () (m.write addrp.toNat (leBytes 4 (alignOffsetUp cur (sizeOf t) + sizeOf t))) :=
    storeBytes_ok hm (by simpa using hc.inPage)
  simp only [unpack, loadI32, bind, EStateM.bind, hload]
  have hcur : ofLeBytes 32 (leBytes 4 cur) = cur := ofLeBytes_leBytes (by decide) cur
  simp only [pure, EStateM.pure, hcur, storeInt, hstore]

/-- The macro's walk: each returned address loads the value of its type, even after
the whole sequence, and only the cell changes. -/
theorem vaArgs_ok {m : Memory} {addrp cur : BitVec 32} {vs : List Prim}
    (hm : m.SlotsMapped cur.toNat (vs.map Prim.type)) (h : m.SlotsHold cur.toNat vs)
    (hc : m.Cell addrp cur) (hd : CellApart addrp.toNat cur.toNat (vs.map Prim.type)) :
    ∃ ps m', vaArgs addrp (vs.map Prim.type) m = .ok ps m' ∧
      List.Forall₂ (fun p v => load p v.type m' = .ok v m') ps vs ∧
      ∀ x, (x < addrp.toNat ∨ addrp.toNat + 4 ≤ x) → m'.byte x = m.byte x := by
  induction vs generalizing cur m with
  | nil => exact ⟨[], m, rfl, .nil, fun _ _ => rfl⟩
  | cons v vs ih =>
      have hlt := hm.head.lt_memSize
      have hnext := toNat_slot_add_size v.type hlt
      have hmap : m.Mapped addrp.toNat := by simpa using hc.holds.mapped (i := 0) (by simp)
      have hpage : ∀ w : BitVec 32, InPage addrp.toNat (leBytes 4 w).length := fun w => by
        simpa using hc.inPage
      -- the cell now holds the address after this slot
      obtain ⟨ps, m', hrun, hall, hkeep⟩ :=
        ih (m := m.write addrp.toNat
            (leBytes 4 (alignOffsetUp cur (sizeOf v.type) + sizeOf v.type)))
          (by rw [hnext]; exact SlotsMapped.write hm.tail)
          (by
            rw [hnext]
            exact h.2.write_of_apart hmap (hpage _) (by simp)
              fun s hs => hd s (List.mem_cons_of_mem _ hs))
          ⟨holds_write hmap (hpage _), hc.inPage⟩
          (by rw [hnext]; exact fun s hs => hd s (List.mem_cons_of_mem _ hs))
      have hsame : ∀ x, (x < addrp.toNat ∨ addrp.toNat + 4 ≤ x) → m'.byte x = m.byte x := by
        intro x hx
        rw [hkeep x hx, byte_write hmap (hpage _), length_leBytes, if_neg (by omega)]
      refine ⟨alignOffsetUp cur (sizeOf v.type) :: ps, m', ?_, .cons ?_ hall, hsame⟩
      · simp only [List.map_cons, vaArgs, bind, EStateM.bind, unpack_ok v.type hc, hrun]
        rfl
      · have hv := hd (alignUp cur.toNat v.type.size, v.type) (by simp [slots])
        apply load_ok <;> rw [toNat_alignOffsetUp v.type hlt]
        · intro i hi
          rw [Prim.length_bytes] at hi
          rw [hsame _ (by dsimp only at hv; omega)]
          exact h.1 i (by rwa [Prim.length_bytes])
        · exact inPage_slot _ _

/-! ## Walks that succeed -/

theorem slotsMapped_cons {m : Memory} {a : ℕ} {t : PrimType} {ts : List PrimType}
    (hhead : m.Mapped (alignUp a t.size)) (htail : m.SlotsMapped (alignUp a t.size + t.size) ts) :
    m.SlotsMapped a (t :: ts) := by
  intro s hs i hi
  rcases List.mem_cons.mp hs with rfl | hs
  · exact (mapped_add_iff (inPage_slot a t) hi).mpr hhead
  · exact htail s hs i hi

theorem slotsMapped_of_packAll {m m' : Memory} {addr last : BitVec 32}
    (ha : addr.toNat + 8 ≤ 2 ^ 32) {vs : List Prim} (h : packAll addr vs m = .ok last m') :
    m.SlotsMapped addr.toNat (vs.map Prim.type) := by
  induction vs generalizing addr m with
  | nil => simp [SlotsMapped, slots]
  | cons v vs ih =>
      rcases pack_cases m ha v with ⟨hm, hpack⟩ | ⟨e, hpack⟩
      · simp only [packAll, bind, EStateM.bind, hpack] at h
        have htail := ih (toNat_next_add_le v.type hm.lt_memSize) h
        rw [toNat_slot_add_size v.type hm.lt_memSize] at htail
        exact slotsMapped_cons hm fun s hs i hi => (mapped_write ..).mp (htail s hs i hi)
      · simp [packAll, bind, EStateM.bind, hpack] at h

theorem load_inv {m m' : Memory} {addr : BitVec 32} {t : PrimType} {v : Prim}
    (h : load addr t m = .ok v m') :
    ∃ bs, v = Prim.ofBytes t bs ∧ bs.length = t.size ∧ m.Mapped addr.toNat ∧
      m.Holds addr.toNat bs ∧ m' = m := by
  rw [load_eq] at h
  rcases loadBytes_cases m addr t.size with ⟨bs, hload, hlen, hm, -, hb⟩ | ⟨-, e, herr⟩
  · simp only [bind, EStateM.bind, hload] at h
    cases h
    exact ⟨bs, rfl, hlen, hm, hb, rfl⟩
  · simp [bind, EStateM.bind, herr] at h

/-- Unpacking undoes packing, for both walkers. -/
theorem unpack_packAll (m : Memory) (a : BitVec 32) (vs : List Prim)
    (hm : m.SlotsMapped a.toNat (vs.map Prim.type)) :
    ∃ last m', packAll a vs m = .ok last m' ∧
      unpackTypes a (vs.map Prim.type) m' = .ok vs m' ∧
      ∀ addrp : BitVec 32, CellApart addrp.toNat a.toNat (vs.map Prim.type) →
        loadI32 addrp m' = .ok a m' →
        ∃ ps m'', vaArgs addrp (vs.map Prim.type) m' = .ok ps m'' ∧
          List.Forall₂ (fun p v => load p v.type m'' = .ok v m'') ps vs := by
  obtain ⟨last, m', hrun, hhold, -, hmap, -⟩ := packAll_ok hm
  have hm' : m'.SlotsMapped a.toNat (vs.map Prim.type) :=
    fun s hs i hi => (hmap _).mpr (hm s hs i hi)
  refine ⟨last, m', hrun, unpackTypes_ok hm' hhold, ?_⟩
  intro addrp hd hcell
  obtain ⟨ps, m'', hva, hall, -⟩ := vaArgs_ok hm' hhold (cell_of_loadI32 hcell) hd
  exact ⟨ps, m'', hva, hall⟩

theorem unpack_packAll_va_list : ∃ m last m' ps m'',
    storeInt 0x3fffffd0#32 0x3fffffe0#32 Memory.initial = .ok () m ∧
    packAll 0x3fffffe0#32 [.byte 0x80#8, .long (-2), .boolean true, .int 7#32] m = .ok last m' ∧
    unpackTypes 0x3fffffe0#32 [.byte, .long, .boolean, .int] m' =
      .ok [.byte 0x80#8, .long (-2), .boolean true, .int 7#32] m' ∧
    vaArgs 0x3fffffd0#32 [.byte, .long, .boolean, .int] m' = .ok ps m'' ∧
    List.Forall₂ (fun p v => load p v.type m'' = .ok v m'') ps
      [.byte 0x80#8, .long (-2), .boolean true, .int 7#32] := by
  have hcell : Memory.initial.Mapped (0x3fffffd0#32).toNat := by decide
  have hslots : Memory.initial.SlotsMapped (0x3fffffe0#32).toNat
      [.byte, .long, .boolean, .int] := by decide
  have hin : InPage (0x3fffffd0#32).toNat (leBytes 4 0x3fffffe0#32).length := by
    rw [length_leBytes]
    exact inPage_of_dvd (by decide : 4 ∣ pageSize) (by decide) le_rfl
  generalize hm : Memory.initial.write (0x3fffffd0#32).toNat (leBytes 4 0x3fffffe0#32) = m
  have hslots : m.SlotsMapped (0x3fffffe0#32).toNat
      ([.byte 0x80#8, .long (-2), .boolean true, .int 7#32].map Prim.type) := hm ▸ hslots.write
  obtain ⟨last, m', hpack, hunpack, hva⟩ := unpack_packAll m 0x3fffffe0#32
    [.byte 0x80#8, .long (-2), .boolean true, .int 7#32] hslots
  have happart : CellApart (0x3fffffd0#32).toNat (0x3fffffe0#32).toNat
      [.byte, .long, .boolean, .int] := by decide
  -- the cell is not packed over
  have hholds : m.Holds (0x3fffffd0#32).toNat (leBytes 4 0x3fffffe0#32) :=
    hm ▸ holds_write hcell hin
  have hload := loadI32_ok (hholds.packAll hslots hpack happart rfl) (by decide)
  obtain ⟨ps, m'', hargs, hall⟩ := hva 0x3fffffd0#32 happart hload
  exact ⟨m, last, m', ps, m'', hm ▸ storeBytes_ok hcell hin, hpack, hunpack, hargs, hall⟩

/-! ## Arrays of bytes -/

theorem inPage_one (a : ℕ) : InPage a 1 := inPage_of_dvd (one_dvd _) (one_dvd a) le_rfl

theorem storeByte_ok {m : Memory} {addr : BitVec 32} (b : BitVec 8) (hm : m.Mapped addr.toNat) :
    storeByte addr b m = .ok () (m.write addr.toNat [b]) := by
  have hb : leBytes 1 b = [b] := by simp [leBytes]
  rw [storeByte, hb, storeBytes_ok hm (inPage_one _)]

/-- Below the top of the memory the next address does not wrap around. -/
theorem toNat_succ_of_mapped {m : Memory} {addr : BitVec 32} (hm : m.Mapped addr.toNat) :
    (addr + 1#32).toNat = addr.toNat + 1 := by
  have hlt := hm.lt_memSize
  simp only [memSize] at hlt
  rw [BitVec.toNat_add, BitVec.toNat_ofNat]
  omega

/-- An array is stored byte by byte, and nothing else changes. -/
theorem storeArray_ok {m : Memory} {addr : BitVec 32} {bs : List (BitVec 8)}
    (hm : ∀ i < bs.length, m.Mapped (addr.toNat + i)) :
    ∃ m', storeArray addr bs m = .ok () m' ∧ m'.Holds addr.toNat bs ∧
      m' = { m with pages := m'.pages } ∧ (∀ x, m'.Mapped x ↔ m.Mapped x) ∧
      ∀ x, (x < addr.toNat ∨ addr.toNat + bs.length ≤ x) → m'.byte x = m.byte x := by
  induction bs generalizing addr m with
  | nil => exact ⟨m, rfl, by simp [Holds], rfl, fun _ => Iff.rfl, fun _ _ => rfl⟩
  | cons b bs ih =>
      have hhead : m.Mapped addr.toNat := hm 0 (by simp)
      have hp : InPage addr.toNat [b].length := inPage_one _
      have hnext := toNat_succ_of_mapped hhead
      have htail : ∀ i < bs.length,
          (m.write addr.toNat [b]).Mapped ((addr + 1#32).toNat + i) := by
        intro i hi
        rw [mapped_write, hnext, Nat.add_assoc, Nat.add_comm 1 i]
        exact hm (i + 1) (by simpa using hi)
      obtain ⟨m', hrun, hhold, hregs, hmap, hout⟩ := ih htail
      rw [hnext] at hhold hout
      refine ⟨m', ?_, ?_, hregs, fun x => (hmap x).trans (mapped_write ..), ?_⟩
      · simp only [storeArray, bind, EStateM.bind, storeByte_ok b hhead]
        exact hrun
      · intro i hi
        cases i with
        | zero =>
            rw [hout _ (Or.inl (by omega))]
            exact holds_write hhead hp 0 (by simp)
        | succ i =>
            have h := hhold i (by simpa using hi)
            rw [Nat.add_assoc, Nat.add_comm 1 i] at h
            rw [h, List.getElem?_cons_succ]
      · intro x hx
        rw [List.length_cons] at hx
        rw [hout x (by omega), byte_write hhead hp, if_neg (by rw [List.length_singleton]; omega)]

theorem mapped_of_storeArray {m m' : Memory} {addr : BitVec 32} {bs : List (BitVec 8)} {u : Unit}
    (h : storeArray addr bs m = .ok u m') : ∀ i < bs.length, m.Mapped (addr.toNat + i) := by
  induction bs generalizing addr m with
  | nil => simp
  | cons b bs ih =>
      have hb : leBytes 1 b = [b] := by simp [leBytes]
      rcases storeBytes_cases m addr [b] with ⟨hm, -, hstore⟩ | ⟨e, hstore⟩
      · simp only [storeArray, storeByte, hb, bind, EStateM.bind, hstore] at h
        intro i hi
        cases i with
        | zero => exact hm
        | succ i =>
            have hrest := ih h i (by simpa using hi)
            rwa [mapped_write, toNat_succ_of_mapped hm, Nat.add_assoc, Nat.add_comm 1 i] at hrest
      · simp only [storeArray, storeByte, hb, bind, EStateM.bind, hstore] at h
        cases h

theorem storeArray_append (addr : BitVec 32) (bs cs : List (BitVec 8)) :
    storeArray addr (bs ++ cs) =
      (do storeArray addr bs; storeArray (addr + BitVec.ofNat 32 bs.length) cs) := by
  induction bs generalizing addr with
  | nil => simp [storeArray]
  | cons b bs ih =>
      have haddr : addr + 1#32 + BitVec.ofNat 32 bs.length =
          addr + BitVec.ofNat 32 (b :: bs).length := by
        rw [List.length_cons, BitVec.add_assoc, Nat.add_comm, BitVec.ofNat_add]
      simp only [List.cons_append, storeArray, ih, haddr, bind_assoc]

theorem packString_eq (addr : BitVec 32) (bs : List (BitVec 8)) :
    packString addr bs =
      (do storeArray addr (bs ++ [0#8]); return addr + BitVec.ofNat 32 bs.length + 1#32) := by
  simp [packString, storeArray_append, storeArray]

end Memory

end Llxvm.Runtime
