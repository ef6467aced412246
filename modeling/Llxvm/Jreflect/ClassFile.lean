import Mathlib.Algebra.GroupWithZero.Nat
import Llxvm.Lib.LittleEndian

/-!
# The format of class files

A class file as the Java virtual machine specification describes it: its members, and the bytes
that it is written as.  Nothing here is about the program that reads it.
-/

namespace Llxvm.Jreflect

open LittleEndian

abbrev Byte := BitVec 8

/-- The bytes of a number, most significant first. -/
def beBytes (n : ℕ) {w : ℕ} (v : BitVec w) : List Byte := (leBytes n v).reverse

theorem length_beBytes (n : ℕ) {w : ℕ} (v : BitVec w) : (beBytes n v).length = n := by
  simp [beBytes]

/-! ## The constant pool -/

/-- An entry of the constant pool; references to other entries are their indices. -/
inductive Constant where
  | utf8 (bytes : List Byte) (length_lt : bytes.length < 2 ^ 16)
  | integer (value : BitVec 32)
  | float (bits : BitVec 32)
  | long (high low : BitVec 32)
  | double (high low : BitVec 32)
  | classInfo (name : BitVec 16)
  | string (index : BitVec 16)
  | fieldref (cls nameAndType : BitVec 16)
  | methodref (cls nameAndType : BitVec 16)
  | interfaceMethodref (cls nameAndType : BitVec 16)
  | nameAndType (name descriptor : BitVec 16)
  | methodHandle (kind : Byte) (reference : BitVec 16)
  | methodType (descriptor : BitVec 16)
  | invokeDynamic (bootstrap nameAndType : BitVec 16)

namespace Constant

def tag : Constant → Byte
  | utf8 _ _ => 1#8
  | integer _ => 3#8
  | float _ => 4#8
  | long _ _ => 5#8
  | double _ _ => 6#8
  | classInfo _ => 7#8
  | string _ => 8#8
  | fieldref _ _ => 9#8
  | methodref _ _ => 10#8
  | interfaceMethodref _ _ => 11#8
  | nameAndType _ _ => 12#8
  | methodHandle _ _ => 15#8
  | methodType _ => 16#8
  | invokeDynamic _ _ => 18#8

/-- What follows the tag. -/
def payload : Constant → List Byte
  | utf8 bytes _ => beBytes 2 (BitVec.ofNat 16 bytes.length) ++ bytes
  | integer value => beBytes 4 value
  | float bits => beBytes 4 bits
  | long high low => beBytes 4 high ++ beBytes 4 low
  | double high low => beBytes 4 high ++ beBytes 4 low
  | classInfo name => beBytes 2 name
  | string index => beBytes 2 index
  | fieldref cls nt => beBytes 2 cls ++ beBytes 2 nt
  | methodref cls nt => beBytes 2 cls ++ beBytes 2 nt
  | interfaceMethodref cls nt => beBytes 2 cls ++ beBytes 2 nt
  | nameAndType name descriptor => beBytes 2 name ++ beBytes 2 descriptor
  | methodHandle kind reference => kind :: beBytes 2 reference
  | methodType descriptor => beBytes 2 descriptor
  | invokeDynamic bootstrap nt => beBytes 2 bootstrap ++ beBytes 2 nt

def bytes (c : Constant) : List Byte := c.tag :: c.payload

/-- The number of indices that an entry takes. -/
def slots : Constant → ℕ
  | long _ _ => 2
  | double _ _ => 2
  | _ => 1

theorem slots_pos (c : Constant) : 0 < c.slots := by
  cases c <;> simp [slots]

def isMethodType : Constant → Bool
  | methodType _ => true
  | _ => false

end Constant

/-- The number of indices of a pool. -/
def poolSlots (pool : List Constant) : ℕ := (pool.map Constant.slots).sum

/-- The entry at an index; the first has the index 1, and the second index of a wide entry is
unusable. -/
def entryAt : List Constant → ℕ → Option Constant
  | [], _ => none
  | c :: pool, i =>
      if i = 1 then some c
      else if c.slots < i then entryAt pool (i - c.slots)
      else none

/-! ## Members -/

theorem length_nil_lt {α : Type} : ([] : List α).length < 2 ^ 16 := Nat.two_pow_pos 16

theorem length_noInterfaces_lt : ([] : List (BitVec 16)).length < 2 ^ 16 := length_nil_lt

/-- An attribute; what its bytes mean depends on its name. -/
structure AttributeInfo where
  name : BitVec 16
  info : List Byte
  length_lt : info.length < 2 ^ 32

/-- A field or a method. -/
structure MemberInfo where
  flags : BitVec 16
  name : BitVec 16
  descriptor : BitVec 16
  attributes : List AttributeInfo
  attributes_lt : attributes.length < 2 ^ 16

structure ClassFile where
  minorVersion : BitVec 16
  majorVersion : BitVec 16
  pool : List Constant
  flags : BitVec 16
  thisClass : BitVec 16
  superClass : BitVec 16
  interfaces : List (BitVec 16)
  fields : List MemberInfo
  methods : List MemberInfo
  attributes : List AttributeInfo
  pool_lt : poolSlots pool + 1 < 2 ^ 16
  interfaces_lt : interfaces.length < 2 ^ 16
  fields_lt : fields.length < 2 ^ 16
  methods_lt : methods.length < 2 ^ 16
  attributes_lt : attributes.length < 2 ^ 16

def AttributeInfo.bytes (a : AttributeInfo) : List Byte :=
  beBytes 2 a.name ++ (beBytes 4 (BitVec.ofNat 32 a.info.length) ++ a.info)

/-- A number of elements and the elements. -/
def tableBytes {α : Type} (bytes : α → List Byte) (l : List α) : List Byte :=
  beBytes 2 (BitVec.ofNat 16 l.length) ++ l.flatMap bytes

def MemberInfo.bytes (m : MemberInfo) : List Byte :=
  beBytes 2 m.flags ++ (beBytes 2 m.name ++ (beBytes 2 m.descriptor ++
    tableBytes AttributeInfo.bytes m.attributes))

def magic : BitVec 32 := 0xcafebabe#32

namespace ClassFile

/-- Magic number and versions. -/
def headerBytes (minor major count : BitVec 16) : List Byte :=
  beBytes 4 magic ++ (beBytes 2 minor ++ (beBytes 2 major ++ beBytes 2 count))

/-- Everything behind the constant pool. -/
def bodyBytes (c : ClassFile) : List Byte :=
  beBytes 2 c.flags ++ (beBytes 2 c.thisClass ++ (beBytes 2 c.superClass ++
    (tableBytes (beBytes 2) c.interfaces ++ (tableBytes MemberInfo.bytes c.fields ++
      (tableBytes MemberInfo.bytes c.methods ++ tableBytes AttributeInfo.bytes c.attributes)))))

def bytes (c : ClassFile) : List Byte :=
  headerBytes c.minorVersion c.majorVersion (BitVec.ofNat 16 (poolSlots c.pool + 1)) ++
    (c.pool.flatMap Constant.bytes ++ c.bodyBytes)

/-- The attributes of the class and of its members. -/
def allAttributes (c : ClassFile) : List AttributeInfo :=
  c.fields.flatMap MemberInfo.attributes ++
    (c.methods.flatMap MemberInfo.attributes ++ c.attributes)

end ClassFile

end Llxvm.Jreflect
