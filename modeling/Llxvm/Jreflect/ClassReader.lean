import Llxvm.Jreflect.ClassFile
import Llxvm.Lib.StreamReader
import Mathlib.Algebra.Group.Int.Defs

/-!
# The class reader

`ClassReader` of `jreflect`, over the bytes of a file.  Most reads do not look whether they got
as many bytes as they asked for; what they return then is unspecified.
-/

namespace Llxvm.Jreflect

open LittleEndian StreamReader

/-! ## Reads -/

abbrev FileM := ReadM Byte (BitVec 32)

/-- The number whose bytes, most significant first, are the given ones. -/
def ofBeBytes (w : ℕ) (bs : List Byte) : BitVec w := ofLeBytes w bs.reverse

theorem ofBeBytes_beBytes {n w : ℕ} (h : w ≤ 8 * n) (v : BitVec w) :
    ofBeBytes w (beBytes n v) = v := by
  rw [ofBeBytes, beBytes, List.reverse_reverse, ofLeBytes_leBytes h]

/-- One element of `n` bytes, as `safe_fread` leaves it in a variable of `w` bits. -/
def safeFread (n w : ℕ) : FileM (BitVec w) := do
  let bs ← take n
  if bs.length = n then return ofBeBytes w bs else return (← unspecified).setWidth w

def readHostByte : FileM (BitVec 8) := safeFread 1 8
def readHostUshort : FileM (BitVec 16) := safeFread 2 16
def readHostInt : FileM (BitVec 32) := safeFread 4 32
def readHostUint : FileM (BitVec 32) := safeFread 4 32
/-- The bits that are read; `be32toh` makes another number of them, which nothing uses. -/
def readHostFloat : FileM (BitVec 32) := safeFread 4 32

/-- The characters of a `std::string`. -/
def text (bs : List Byte) : String := String.ofList (bs.map fun b => Char.ofNat b.toNat)

/-- The buffer has `sz + 1` zeros.  For the largest `int` the sum overflows, and a negative
`sz` is a size that cannot be allocated. -/
def readHostString (sz : BitVec 32) : FileM String :=
  if 0 ≤ sz.toInt ∧ sz.toInt < 2 ^ 31 - 1 then do
    let bs ← take sz.toInt.toNat
    return text (bs.takeWhile (· ≠ 0#8))
  else undefined

/-! ## Class information -/

inductive ConstantPoolTag where
  | none | stringUtf8 | integer | float | long | double | classRef | string | field | method
  | interfaceMethod | name | methodHandle | methodType | invokeDynamic
  deriving DecidableEq

/-- The cast of a byte; the other bytes are no value of the enumeration. -/
def ConstantPoolTag.ofByte (b : Byte) : Option ConstantPoolTag :=
  match b.toNat with
  | 1 => some stringUtf8
  | 3 => some integer
  | 4 => some float
  | 5 => some long
  | 6 => some double
  | 7 => some classRef
  | 8 => some string
  | 9 => some field
  | 10 => some method
  | 11 => some interfaceMethod
  | 12 => some name
  | 15 => some methodHandle
  | 16 => some methodType
  | 18 => some invokeDynamic
  | _ => Option.none

structure Ref where
  classIdx : BitVec 16
  nameIdx : BitVec 16

/-- The alternatives of the `std::variant`. -/
inductive ItemValue where
  | string (s : String)
  | float (bits : BitVec 32)
  | double (high low : BitVec 32)
  | long (high low : BitVec 32)
  | int (value : BitVec 32)
  | ref (r : Ref)

structure Item where
  tag : ConstantPoolTag
  value : ItemValue

/-- `new Item()`. -/
def Item.empty : Item := ⟨.none, .string ""⟩

structure Attribute where
  nameIdx : BitVec 16
  length : BitVec 32
  info : String

/-- A `Field` or a `Method`. -/
structure Member where
  flags : BitVec 16
  nameIdx : BitVec 16
  typeIdx : BitVec 16
  attrs : List Attribute

structure ClassInfo where
  minorVersion : BitVec 16
  majorVersion : BitVec 16
  constPoolCount : BitVec 16
  poolSizeBytes : ℕ
  items : List Item
  flags : BitVec 16
  thisClass : BitVec 16
  superClass : BitVec 16
  interfaces : List (BitVec 16)
  fields : List Member
  methods : List Member
  attributes : List Attribute

/-! ## Parsing -/

def isClass : FileM Bool := do return (← readHostUint) == 0xcafebabe#32

def parseHeader : FileM (BitVec 16 × BitVec 16 × BitVec 16) := do
  let minorVersion ← readHostUshort
  let majorVersion ← readHostUshort
  let constPoolCount ← readHostUshort
  return (minorVersion, majorVersion, constPoolCount)

def readRef : FileM ItemValue := do
  let classIdx ← readHostUshort
  let nameIdx ← readHostUshort
  return .ref ⟨classIdx, nameIdx⟩

/-- The `switch` on the tag: the value of the item and what it adds to the size of the table.
`none` is the default case, which has `J_METHOD_TYPE` as well. -/
def readItem : ConstantPoolTag → FileM (Option (ItemValue × ℕ))
  | .stringUtf8 => do
    let sz ← readHostUshort
    let s ← readHostString (sz.setWidth 32)
    return some (.string s, 2 + sz.toNat)
  | .integer => do return some (.int (← readHostInt), 4)
  | .float => do return some (.float (← readHostFloat), 4)
  | .long => do
    let high ← readHostInt
    let low ← readHostInt
    return some (.long high low, 8)
  | .double => do
    let high ← readHostInt
    let low ← readHostInt
    return some (.double high low, 8)
  | .classRef => do return some (.ref ⟨← readHostUshort, 0#16⟩, 2)
  | .string => do return some (.ref ⟨← readHostUshort, 0#16⟩, 2)
  | .field => do return some (← readRef, 4)
  | .method => do return some (← readRef, 4)
  | .interfaceMethod => do return some (← readRef, 4)
  | .name => do return some (← readRef, 4)
  | .invokeDynamic => do return some (← readRef, 4)
  | .methodHandle => do
    let kind ← readHostByte
    let reference ← readHostUshort
    return some (.ref ⟨kind.setWidth 16, reference⟩, 3)
  | .methodType => return none
  | .none => return none

/-- Constants of eight bytes take two entries. -/
def ConstantPoolTag.isWide : ConstantPoolTag → Bool
  | long => true
  | double => true
  | _ => false

/-- The loop of `parse_const_pool`, with the number of entries that are still to be read. -/
def parseItems : ℕ → List Item → ℕ → FileM (Option (List Item × ℕ))
  | 0, items, tableSize => return some (items, tableSize)
  | n + 1, items, tableSize => do
    let tagByte ← readHostByte
    if tagByte.toNat < 1 ∨ 18 < tagByte.toNat then return some (items, 0)
    else
      match ConstantPoolTag.ofByte tagByte with
      | none => return none
      | some tag =>
        match ← readItem tag with
        | none => return none
        | some (value, size) =>
          if tag.isWide then
            match n with
            | 0 => return some (items ++ [.empty, ⟨tag, value⟩], tableSize + size)
            | k + 1 => parseItems k (items ++ [.empty, ⟨tag, value⟩]) (tableSize + size)
          else parseItems n (items ++ [⟨tag, value⟩]) (tableSize + size)

def parseConstPool (constPoolCount : BitVec 16) : FileM (Option (List Item × ℕ)) :=
  parseItems (constPoolCount.toNat - 1) [.empty] 0

def parseAttribute : FileM Attribute := do
  let nameIdx ← readHostUshort
  let length ← readHostUint
  let info ← readHostString length
  return ⟨nameIdx, length, info⟩

/-- A number of elements and the loop that reads them. -/
def readTable {α : Type} (x : FileM α) : FileM (List α) := do
  let count ← readHostUshort
  times count.toNat x

def readMember : FileM Member := do
  let flags ← readHostUshort
  let nameIdx ← readHostUshort
  let typeIdx ← readHostUshort
  let attrs ← readTable parseAttribute
  return ⟨flags, nameIdx, typeIdx, attrs⟩

/-- The part of `read` behind the constant pool. -/
def readBody (ci : ClassInfo) : FileM ClassInfo := do
  let flags ← readHostUshort
  let thisClass ← readHostUshort
  let superClass ← readHostUshort
  let interfaces ← readTable readHostUshort
  let fields ← readTable readMember
  let methods ← readTable readMember
  let attributes ← readTable parseAttribute
  return { ci with flags, thisClass, superClass, interfaces, fields, methods, attributes }

/-- The part of `read` behind the header. -/
def readClass (minorVersion majorVersion constPoolCount : BitVec 16) :
    FileM (Option ClassInfo) := do
  match ← parseConstPool constPoolCount with
  | none => return none
  | some (items, poolSizeBytes) =>
    if poolSizeBytes = 0 then return none
    else
      return some (← readBody ⟨minorVersion, majorVersion, constPoolCount, poolSizeBytes, items,
        0#16, 0#16, 0#16, [], [], [], []⟩)

/-- `read`, for a file that can be opened; `none` is the null pointer. -/
def read : FileM (Option ClassInfo) := do
  if ← isClass then
    let (minorVersion, majorVersion, constPoolCount) ← parseHeader
    readClass minorVersion majorVersion constPoolCount
  else return none

/-! ## What a class file is read as -/

namespace Constant

def poolTag : Constant → ConstantPoolTag
  | utf8 _ _ => .stringUtf8
  | integer _ => .integer
  | float _ => .float
  | long _ _ => .long
  | double _ _ => .double
  | classInfo _ => .classRef
  | string _ => .string
  | fieldref _ _ => .field
  | methodref _ _ => .method
  | interfaceMethodref _ _ => .interfaceMethod
  | nameAndType _ _ => .name
  | methodHandle _ _ => .methodHandle
  | methodType _ => .methodType
  | invokeDynamic _ _ => .invokeDynamic

def value : Constant → ItemValue
  | utf8 bytes _ => .string (text (bytes.takeWhile (· ≠ 0#8)))
  | integer value => .int value
  | float bits => .float bits
  | long high low => .long high low
  | double high low => .double high low
  | classInfo name => .ref ⟨name, 0#16⟩
  | string index => .ref ⟨index, 0#16⟩
  | fieldref cls nt => .ref ⟨cls, nt⟩
  | methodref cls nt => .ref ⟨cls, nt⟩
  | interfaceMethodref cls nt => .ref ⟨cls, nt⟩
  | nameAndType name descriptor => .ref ⟨name, descriptor⟩
  | methodHandle kind reference => .ref ⟨kind.setWidth 16, reference⟩
  | methodType descriptor => .ref ⟨descriptor, 0#16⟩
  | invokeDynamic bootstrap nt => .ref ⟨bootstrap, nt⟩

theorem ofByte_tag (c : Constant) : ConstantPoolTag.ofByte c.tag = some c.poolTag := by
  cases c <;> rfl

theorem tag_range (c : Constant) : ¬ (c.tag.toNat < 1 ∨ 18 < c.tag.toNat) := by
  cases c <;> simp [tag]

theorem payload_pos (c : Constant) : 0 < c.payload.length := by
  cases c <;> simp only [payload, List.length_append, length_beBytes, List.length_cons] <;> omega

end Constant

theorem reads_safeFread {n w : ℕ} (h : w ≤ 8 * n) (v : BitVec w) :
    Reads (safeFread n w) (beBytes n v) v := by
  have htake : Reads (take n : FileM _) (beBytes n v) (beBytes n v) := by
    have := reads_take (υ := BitVec 32) (beBytes n v)
    rwa [length_beBytes] at this
  have hread : Reads (safeFread n w) (beBytes n v ++ []) v := by
    refine htake.bind ?_
    rw [if_pos (length_beBytes n v), ofBeBytes_beBytes h]
    exact reads_pure v
  rwa [List.append_nil] at hread

theorem reads_ushort (v : BitVec 16) : Reads readHostUshort (beBytes 2 v) v :=
  reads_safeFread (by decide) v

theorem reads_word (v : BitVec 32) : Reads (safeFread 4 32) (beBytes 4 v) v :=
  reads_safeFread (by decide) v

theorem reads_byte (v : BitVec 8) : Reads readHostByte [v] v := by
  have h := reads_safeFread (n := 1) (by decide) v
  rwa [show beBytes 1 v = [v] by simp [beBytes, leBytes]] at h

theorem toInt_ofNat_length {n : ℕ} (h : n < 2 ^ 31) : (BitVec.ofNat 32 n).toInt = n := by
  rw [BitVec.toInt_eq_toNat_of_lt] <;> simp only [BitVec.toNat_ofNat] <;> omega

theorem reads_string {bs : List Byte} (h : bs.length < 2 ^ 31 - 1) :
    Reads (readHostString (BitVec.ofNat 32 bs.length)) bs (text (bs.takeWhile (· ≠ 0#8))) := by
  have hint := toInt_ofNat_length (n := bs.length) (by omega)
  have hread := (reads_take (υ := BitVec 32) bs).map fun bs => text (bs.takeWhile (· ≠ 0#8))
  unfold readHostString
  rw [if_pos (by rw [hint]; omega), hint]
  exact hread

theorem fails_string {bs : List Byte} (h : 2 ^ 31 - 1 ≤ bs.length) (hlt : bs.length < 2 ^ 32)
    (cs : List Byte) : Fails (readHostString (BitVec.ofNat 32 bs.length)) cs := by
  intro rest u
  have hint : (BitVec.ofNat 32 bs.length).toInt = (bs.length : Int).bmod (2 ^ 32) := by
    rw [BitVec.toInt_ofNat']
  unfold readHostString
  rw [if_neg]
  · rfl
  · rw [hint, Int.bmod_def]
    split <;> omega

theorem reads_ref (v v' : BitVec 16) :
    Reads readRef (beBytes 2 v ++ beBytes 2 v') (.ref ⟨v, v'⟩) :=
  (reads_ushort v).bind ((reads_ushort v').map fun nameIdx => ItemValue.ref ⟨v, nameIdx⟩)

theorem reads_readItem {c : Constant} (h : c.isMethodType = false) :
    Reads (readItem c.poolTag) c.payload (some (c.value, c.payload.length)) := by
  cases c with
  | utf8 bytes hlt =>
      have hlen : (BitVec.ofNat 16 bytes.length).toNat = bytes.length := by
        rw [BitVec.toNat_ofNat]
        exact Nat.mod_eq_of_lt hlt
      have hstring : Reads (readHostString ((BitVec.ofNat 16 bytes.length).setWidth 32)) bytes
          (text (bytes.takeWhile (· ≠ 0#8))) := by
        have hwidth :
            (BitVec.ofNat 16 bytes.length).setWidth 32 = BitVec.ofNat 32 bytes.length := by
          apply BitVec.eq_of_toNat_eq
          rw [BitVec.toNat_setWidth, hlen, BitVec.toNat_ofNat]
        rw [hwidth]
        exact reads_string (by omega)
      have hall : Reads (readItem .stringUtf8) (beBytes 2 (BitVec.ofNat 16 bytes.length) ++ bytes)
          (some (.string (text (bytes.takeWhile (· ≠ 0#8))),
            2 + (BitVec.ofNat 16 bytes.length).toNat)) :=
        (reads_ushort _).bind (hstring.map fun s => some (_, _))
      simp only [Constant.payload, Constant.value, List.length_append, length_beBytes]
      rw [hlen] at hall
      exact hall
  | integer value => exact (reads_word value).map fun v => some (ItemValue.int v, 4)
  | float bits => exact (reads_word bits).map fun v => some (ItemValue.float v, 4)
  | long high low =>
      exact (reads_word high).bind
        ((reads_word low).map fun low => some (ItemValue.long high low, 8))
  | double high low =>
      exact (reads_word high).bind
        ((reads_word low).map fun low => some (ItemValue.double high low, 8))
  | classInfo name => exact (reads_ushort name).map fun v => some (ItemValue.ref ⟨v, 0#16⟩, 2)
  | string index => exact (reads_ushort index).map fun v => some (ItemValue.ref ⟨v, 0#16⟩, 2)
  | fieldref cls nt => exact (reads_ref cls nt).map fun v => some (v, 4)
  | methodref cls nt => exact (reads_ref cls nt).map fun v => some (v, 4)
  | interfaceMethodref cls nt => exact (reads_ref cls nt).map fun v => some (v, 4)
  | nameAndType name descriptor => exact (reads_ref name descriptor).map fun v => some (v, 4)
  | methodHandle kind reference =>
      exact (reads_byte kind).bind ((reads_ushort reference).map fun v =>
        some (ItemValue.ref ⟨kind.setWidth 16, v⟩, 3))
  | methodType descriptor => cases h
  | invokeDynamic bootstrap nt => exact (reads_ref bootstrap nt).map fun v => some (v, 4)

/-! ## The constant pool -/

/-- The items that an entry is read as; that of a wide one comes second. -/
def Constant.items (c : Constant) : List Item :=
  if c.poolTag.isWide then [.empty, ⟨c.poolTag, c.value⟩] else [⟨c.poolTag, c.value⟩]

theorem Constant.slots_eq (c : Constant) : c.slots = if c.poolTag.isWide then 2 else 1 := by
  cases c <;> rfl

theorem parseItems_constant {c : Constant} (h : c.isMethodType = false) {n : ℕ} (hn : c.slots ≤ n)
    (items : List Item) (size : ℕ) (rest : List Byte) (u : ℕ → BitVec 32) :
    parseItems n items size ⟨c.bytes ++ rest, u⟩ =
      parseItems (n - c.slots) (items ++ c.items) (size + c.payload.length) ⟨rest, u⟩ := by
  have hpos := c.slots_pos
  obtain ⟨m, rfl⟩ := Nat.exists_eq_succ_of_ne_zero (by omega : n ≠ 0)
  have htag := reads_byte c.tag (c.payload ++ rest) u
  have hitem := reads_readItem h rest u
  rw [show c.bytes ++ rest = [c.tag] ++ (c.payload ++ rest) by simp [Constant.bytes]]
  simp only [parseItems, read_bind, htag, Option.bind_some, if_neg c.tag_range, c.ofByte_tag, hitem,
    Constant.items]
  rw [c.slots_eq] at hn ⊢
  cases hwide : c.poolTag.isWide with
  | false => rfl
  | true =>
      rw [hwide, if_pos rfl] at hn
      obtain ⟨k, rfl⟩ := Nat.exists_eq_succ_of_ne_zero (by omega : m ≠ 0)
      rfl

def poolItems (pool : List Constant) : List Item := pool.flatMap Constant.items

def poolSize (pool : List Constant) : ℕ := (pool.map fun c => c.payload.length).sum

/-- The loop reads entry after entry, as long as there are any to be read. -/
theorem parseItems_pool {pool : List Constant} (h : ∀ c ∈ pool, c.isMethodType = false) {n : ℕ}
    (hn : poolSlots pool ≤ n) (items : List Item) (size : ℕ) (rest : List Byte)
    (u : ℕ → BitVec 32) :
    parseItems n items size ⟨pool.flatMap Constant.bytes ++ rest, u⟩ =
      parseItems (n - poolSlots pool) (items ++ poolItems pool) (size + poolSize pool)
        ⟨rest, u⟩ := by
  induction pool generalizing n items size with
  | nil => simp [poolSlots, poolItems, poolSize]
  | cons c pool ih =>
      have hslots : poolSlots (c :: pool) = c.slots + poolSlots pool := by simp [poolSlots]
      rw [hslots] at hn ⊢
      rw [List.flatMap_cons, List.append_assoc,
        parseItems_constant (h c List.mem_cons_self) (by omega),
        ih (fun d hd => h d (List.mem_cons_of_mem c hd)) (by omega)]
      simp only [poolItems, poolSize, List.flatMap_cons, List.map_cons, List.sum_cons,
        List.append_assoc, Nat.sub_sub, Nat.add_assoc]

theorem parseConstPool_pool {pool : List Constant} (h : ∀ c ∈ pool, c.isMethodType = false)
    (hlt : poolSlots pool + 1 < 2 ^ 16) (rest : List Byte) (u : ℕ → BitVec 32) :
    parseConstPool (BitVec.ofNat 16 (poolSlots pool + 1))
        ⟨pool.flatMap Constant.bytes ++ rest, u⟩ =
      some (some (.empty :: poolItems pool, poolSize pool), ⟨rest, u⟩) := by
  have hcount : (BitVec.ofNat 16 (poolSlots pool + 1)).toNat - 1 = poolSlots pool := by
    rw [BitVec.toNat_ofNat, Nat.mod_eq_of_lt hlt, Nat.add_sub_cancel]
  rw [parseConstPool, hcount, parseItems_pool h (Nat.le_refl _), Nat.sub_self]
  simp [parseItems, read_pure]

/-! ## Members -/

def AttributeInfo.read (a : AttributeInfo) : Attribute :=
  ⟨a.name, BitVec.ofNat 32 a.info.length, text (a.info.takeWhile (· ≠ 0#8))⟩

def MemberInfo.read (m : MemberInfo) : Member :=
  ⟨m.flags, m.name, m.descriptor, m.attributes.map AttributeInfo.read⟩

def ClassFile.read (c : ClassFile) : ClassInfo where
  minorVersion := c.minorVersion
  majorVersion := c.majorVersion
  constPoolCount := BitVec.ofNat 16 (poolSlots c.pool + 1)
  poolSizeBytes := poolSize c.pool
  items := .empty :: poolItems c.pool
  flags := c.flags
  thisClass := c.thisClass
  superClass := c.superClass
  interfaces := c.interfaces
  fields := c.fields.map MemberInfo.read
  methods := c.methods.map MemberInfo.read
  attributes := c.attributes.map AttributeInfo.read

/-- The buffer for the bytes of the attribute can be allocated. -/
def AttributeInfo.Fits (a : AttributeInfo) : Prop := a.info.length < 2 ^ 31 - 1

theorem reads_parseAttribute {a : AttributeInfo} (h : a.Fits) :
    Reads parseAttribute a.bytes a.read :=
  (reads_ushort a.name).bind ((reads_word _).bind ((reads_string h).map fun info =>
    Attribute.mk _ _ info))

theorem fails_parseAttribute {a : AttributeInfo} (h : ¬ a.Fits) : Fails parseAttribute a.bytes := by
  refine (reads_ushort a.name).bind_fails ((reads_word _).bind_fails ?_)
  have hbad := (fails_string (Nat.not_lt.mp h) a.length_lt a.info).bind
    (fun info => (return ⟨a.name, BitVec.ofNat 32 a.info.length, info⟩ : FileM Attribute)) []
  rwa [List.append_nil] at hbad

section table

variable {α δ : Type} {x : FileM α} {e : δ → List Byte} {r : δ → α} {l : List δ}

theorem reads_table (hl : l.length < 2 ^ 16) (h : ∀ d ∈ l, Reads x (e d) (r d)) :
    Reads (readTable x) (tableBytes e l) (l.map r) := by
  refine (reads_ushort (BitVec.ofNat 16 l.length)).bind ?_
  have hlen : (BitVec.ofNat 16 l.length).toNat = l.length := by
    rw [BitVec.toNat_ofNat]
    exact Nat.mod_eq_of_lt hl
  rw [hlen]
  exact reads_times h

theorem fails_table (hl : l.length < 2 ^ 16)
    (h : ∀ d ∈ l, Reads x (e d) (r d) ∨ Fails x (e d)) {d : δ} (hd : d ∈ l)
    (hfails : Fails x (e d)) : Fails (readTable x) (tableBytes e l) := by
  refine (reads_ushort (BitVec.ofNat 16 l.length)).bind_fails ?_
  have hlen : (BitVec.ofNat 16 l.length).toNat = l.length := by
    rw [BitVec.toNat_ofNat]
    exact Nat.mod_eq_of_lt hl
  rw [hlen]
  exact fails_times h hd hfails

end table

/-- All attributes fit. -/
def MemberInfo.Fits (m : MemberInfo) : Prop := ∀ a ∈ m.attributes, a.Fits

theorem reads_readMember {m : MemberInfo} (h : m.Fits) : Reads readMember m.bytes m.read :=
  (reads_ushort m.flags).bind ((reads_ushort m.name).bind ((reads_ushort m.descriptor).bind
    ((reads_table m.attributes_lt fun a ha => reads_parseAttribute (h a ha)).map fun attrs =>
      Member.mk _ _ _ attrs)))

theorem fails_readMember {m : MemberInfo} (h : ¬ m.Fits) : Fails readMember m.bytes := by
  unfold MemberInfo.Fits at h
  push Not at h
  obtain ⟨a, ha, hbad⟩ := h
  have hfails : Fails (readTable parseAttribute) (tableBytes AttributeInfo.bytes m.attributes) := by
    refine fails_table (r := AttributeInfo.read) m.attributes_lt (fun b _ => ?_) ha
      (fails_parseAttribute hbad)
    by_cases hb : b.Fits
    · exact .inl (reads_parseAttribute hb)
    · exact .inr (fails_parseAttribute hb)
  have hlast := hfails.bind (fun attrs =>
    (return Member.mk m.flags m.name m.descriptor attrs : FileM Member)) []
  rw [List.append_nil] at hlast
  exact (reads_ushort m.flags).bind_fails ((reads_ushort m.name).bind_fails
    ((reads_ushort m.descriptor).bind_fails hlast))

/-! ## Class files -/

namespace ClassFile

variable (c : ClassFile)

def Fits : Prop := ∀ a ∈ c.allAttributes, a.Fits

theorem fits_iff : c.Fits ↔ (∀ m ∈ c.fields, m.Fits) ∧ (∀ m ∈ c.methods, m.Fits) ∧
    ∀ a ∈ c.attributes, a.Fits := by
  simp only [Fits, allAttributes, List.mem_append, List.mem_flatMap, MemberInfo.Fits]
  grind

variable {c}

theorem reads_interfaces : Reads (readTable readHostUshort) (tableBytes (beBytes 2) c.interfaces)
    c.interfaces := by
  have htable := reads_table (e := fun v : BitVec 16 => beBytes 2 v) (r := fun v => v)
    c.interfaces_lt fun v _ => reads_ushort v
  rwa [List.map_id'] at htable

theorem reads_members {l : List MemberInfo} (hl : l.length < 2 ^ 16) (h : ∀ m ∈ l, m.Fits) :
    Reads (readTable readMember) (tableBytes MemberInfo.bytes l) (l.map MemberInfo.read) :=
  reads_table hl fun m hm => reads_readMember (h m hm)

theorem fails_members {l : List MemberInfo} (hl : l.length < 2 ^ 16) (h : ¬ ∀ m ∈ l, m.Fits) :
    Fails (readTable readMember) (tableBytes MemberInfo.bytes l) := by
  push Not at h
  obtain ⟨m, hm, hbad⟩ := h
  refine fails_table (r := MemberInfo.read) hl (fun m' _ => ?_) hm (fails_readMember hbad)
  by_cases hm' : m'.Fits
  · exact .inl (reads_readMember hm')
  · exact .inr (fails_readMember hm')

theorem reads_attributes {l : List AttributeInfo} (hl : l.length < 2 ^ 16)
    (h : ∀ a ∈ l, a.Fits) :
    Reads (readTable parseAttribute) (tableBytes AttributeInfo.bytes l)
      (l.map AttributeInfo.read) :=
  reads_table hl fun a ha => reads_parseAttribute (h a ha)

theorem fails_attributes {l : List AttributeInfo} (hl : l.length < 2 ^ 16)
    (h : ¬ ∀ a ∈ l, a.Fits) :
    Fails (readTable parseAttribute) (tableBytes AttributeInfo.bytes l) := by
  push Not at h
  obtain ⟨a, ha, hbad⟩ := h
  refine fails_table (r := AttributeInfo.read) hl (fun b _ => ?_) ha (fails_parseAttribute hbad)
  by_cases hb : b.Fits
  · exact .inl (reads_parseAttribute hb)
  · exact .inr (fails_parseAttribute hb)

theorem reads_readBody (h : c.Fits) (ci : ClassInfo) : Reads (readBody ci) c.bodyBytes
    { ci with
      flags := c.flags, thisClass := c.thisClass, superClass := c.superClass
      interfaces := c.interfaces
      fields := c.fields.map MemberInfo.read
      methods := c.methods.map MemberInfo.read
      attributes := c.attributes.map AttributeInfo.read } := by
  obtain ⟨hfields, hmethods, hattrs⟩ := c.fits_iff.mp h
  exact (reads_ushort c.flags).bind ((reads_ushort c.thisClass).bind
    ((reads_ushort c.superClass).bind (reads_interfaces.bind
      ((reads_members c.fields_lt hfields).bind ((reads_members c.methods_lt hmethods).bind
        ((reads_attributes c.attributes_lt hattrs).map fun attributes =>
          ClassInfo.mk _ _ _ _ _ _ _ _ _ _ _ attributes))))))

theorem fails_readBody (h : ¬ c.Fits) (ci : ClassInfo) : Fails (readBody ci) c.bodyBytes := by
  refine (reads_ushort c.flags).bind_fails ((reads_ushort c.thisClass).bind_fails
    ((reads_ushort c.superClass).bind_fails (reads_interfaces.bind_fails ?_)))
  by_cases hfields : ∀ m ∈ c.fields, m.Fits
  · refine (reads_members c.fields_lt hfields).bind_fails ?_
    by_cases hmethods : ∀ m ∈ c.methods, m.Fits
    · refine (reads_members c.methods_lt hmethods).bind_fails ?_
      have hattrs : ¬ ∀ a ∈ c.attributes, a.Fits :=
        fun hattrs => h (c.fits_iff.mpr ⟨hfields, hmethods, hattrs⟩)
      have hlast := (fails_attributes c.attributes_lt hattrs).bind (fun attributes =>
        (return { ci with
          flags := c.flags, thisClass := c.thisClass, superClass := c.superClass
          interfaces := c.interfaces
          fields := c.fields.map MemberInfo.read
          methods := c.methods.map MemberInfo.read
          attributes } : FileM ClassInfo)) []
      rwa [List.append_nil] at hlast
    · exact (fails_members c.methods_lt hmethods).bind _ _
  · exact (fails_members c.fields_lt hfields).bind _ _

theorem read_headerBytes (minor major count : BitVec 16) (rest : List Byte) (u : ℕ → BitVec 32) :
    Jreflect.read ⟨headerBytes minor major count ++ rest, u⟩ =
      readClass minor major count ⟨rest, u⟩ := by
  have hmagic : Reads isClass (beBytes 4 magic) true := by
    have h := (reads_word magic).map (· == 0xcafebabe#32)
    exact h
  have hheader : Reads parseHeader (beBytes 2 minor ++ (beBytes 2 major ++ beBytes 2 count))
      (minor, major, count) :=
    (reads_ushort minor).bind ((reads_ushort major).bind ((reads_ushort count).map fun count =>
      (minor, major, count)))
  have hboth := hmagic ((beBytes 2 minor ++ (beBytes 2 major ++ beBytes 2 count)) ++ rest) u
  simp only [Jreflect.read, read_bind, headerBytes, List.append_assoc] at hboth ⊢
  rw [hboth]
  have hnext := hheader rest u
  simp only [List.append_assoc] at hnext
  simp only [Option.bind_some, if_true, read_bind, hnext]

/-- The pool is not empty, and has no entries that `parse_const_pool` knows nothing about. -/
structure Readable (c : ClassFile) : Prop where
  pool_ne : c.pool ≠ []
  no_methodType : ∀ k ∈ c.pool, k.isMethodType = false

theorem poolSize_pos {pool : List Constant} (h : pool ≠ []) : 0 < poolSize pool := by
  obtain ⟨k, pool, rfl⟩ := List.exists_cons_of_ne_nil h
  have hpos := k.payload_pos
  simp only [poolSize, List.map_cons, List.sum_cons]
  omega

theorem parseConstPool_bytes (h : c.Readable) (rest : List Byte) (u : ℕ → BitVec 32) :
    parseConstPool (BitVec.ofNat 16 (poolSlots c.pool + 1))
        ⟨c.pool.flatMap Constant.bytes ++ rest, u⟩ =
      some (some (.empty :: poolItems c.pool, poolSize c.pool), ⟨rest, u⟩) :=
  parseConstPool_pool h.no_methodType c.pool_lt rest u

theorem reads_read (h : c.Readable) (hfits : c.Fits) :
    Reads Jreflect.read c.bytes (some c.read) := by
  intro rest u
  have hpos := poolSize_pos h.pool_ne
  rw [bytes, List.append_assoc, read_headerBytes, readClass, read_bind, List.append_assoc,
    parseConstPool_bytes h, Option.bind_some]
  simp only [if_neg (Nat.pos_iff_ne_zero.mp hpos), read_bind]
  rw [reads_readBody hfits]
  rfl

theorem fails_read (h : c.Readable) (hfits : ¬ c.Fits) : Fails Jreflect.read c.bytes := by
  intro rest u
  have hpos := poolSize_pos h.pool_ne
  rw [bytes, List.append_assoc, read_headerBytes, readClass, read_bind, List.append_assoc,
    parseConstPool_bytes h, Option.bind_some]
  simp only [if_neg (Nat.pos_iff_ne_zero.mp hpos), read_bind]
  rw [fails_readBody hfits]
  rfl

end ClassFile

end Llxvm.Jreflect
