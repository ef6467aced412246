import Mathlib.Data.List.TakeWhile
import Llxvm.Jreflect.ClassReader

/-!
# Names and signatures

The names that `ClassInfo` finds through the constant pool, and those that the class file has.
-/

namespace Llxvm.Jreflect

open StreamReader

/-! ## Names of the class information -/

/-- `std::get`; `none` is the exception for another alternative. -/
def ItemValue.getString : ItemValue → Option String
  | string s => some s
  | _ => none

def ItemValue.getRef : ItemValue → Option Ref
  | ref r => some r
  | _ => none

namespace ClassInfo

variable (ci : ClassInfo)

def getClassName : Option String :=
  if ci.thisClass = 0#16 ∨ ci.items.length = 0 ∨ ci.items.length ≤ ci.thisClass.toNat then some ""
  else do
    let item ← ci.items[ci.thisClass.toNat]?
    if item.tag ≠ .classRef then return ""
    else
      let idx := (← item.value.getRef).classIdx
      if idx = 0#16 ∨ ci.items.length ≤ idx.toNat then return ""
      else
        let item ← ci.items[idx.toNat]?
        if item.tag ≠ .stringUtf8 then return "" else item.value.getString

/-- The body of `getMethodName` and `getFieldName`. -/
def getName (m : Member) : Option String :=
  if m.nameIdx = 0#16 ∨ ci.items.length ≤ m.nameIdx.toNat then some ""
  else do
    let item ← ci.items[m.nameIdx.toNat]?
    if item.tag ≠ .stringUtf8 then return "" else item.value.getString

def getMethodName (m : Member) : Option String := ci.getName m
def getFieldName (f : Member) : Option String := ci.getName f

def getMethodSignature (m : Member) : Option String := do
  let bfr ← ci.getMethodName m
  let item ← ci.items[m.typeIdx.toNat]?
  if item.tag ≠ .stringUtf8 then return ""
  else
    let types ← item.value.getString
    return bfr ++ types

def getFieldSignature (f : Member) : Option String := do
  let bfr ← ci.getFieldName f
  let item ← ci.items[f.typeIdx.toNat]?
  if item.tag ≠ .stringUtf8 then return ""
  else
    let types ← item.value.getString
    return bfr ++ (" " ++ types)

end ClassInfo

namespace Member

def accPublic : BitVec 16 := 1#16
def accStatic : BitVec 16 := 8#16
def accEnum : BitVec 16 := 16384#16

def isStatic (m : Member) : Bool := m.flags &&& accStatic != 0#16
def isPublic (m : Member) : Bool := m.flags &&& accPublic != 0#16
def isEnum (m : Member) : Bool := m.flags &&& accEnum != 0#16

end Member

/-! ## Names of the class file -/

def Constant.noZero : Constant → Bool
  | .utf8 bytes _ => !bytes.contains 0#8
  | _ => true

namespace ClassFile

variable (c : ClassFile)

def utf8 (i : BitVec 16) : Option (List Byte) :=
  match entryAt c.pool i.toNat with
  | some (.utf8 bytes _) => some bytes
  | _ => none

def className : Option String :=
  match entryAt c.pool c.thisClass.toNat with
  | some (.classInfo i) => (c.utf8 i).map text
  | _ => none

/-- The name and the descriptor of a member. -/
def signature (sep : String) (m : MemberInfo) : Option String := do
  let name ← c.utf8 m.name
  let descriptor ← c.utf8 m.descriptor
  return text name ++ (sep ++ text descriptor)

end ClassFile

namespace MemberInfo

variable (m : MemberInfo)

def isPublic : Bool := m.flags.getLsbD 0
def isStatic : Bool := m.flags.getLsbD 3
def isEnum : Bool := m.flags.getLsbD 14

end MemberInfo

namespace ClassFile

variable (c : ClassFile)

def linkableMethods : List MemberInfo := c.methods.filter fun m => m.isPublic && m.isStatic

def linkableFields : List MemberInfo :=
  c.fields.filter fun f => f.isPublic && f.isStatic && !f.isEnum

/-- The class and its members have names; a name is not empty, and its modified UTF-8 has no
zeros. -/
structure WellFormed : Prop where
  className : c.className.isSome
  name : ∀ m ∈ c.fields ++ c.methods, ∃ name ∈ c.utf8 m.name, name ≠ []
  descriptor : ∀ m ∈ c.fields ++ c.methods, (c.utf8 m.descriptor).isSome
  no_zero : ∀ k ∈ c.pool, k.noZero

end ClassFile

/-! ## Both are the same -/

theorem Constant.length_items (k : Constant) : k.items.length = k.slots := by
  rw [k.slots_eq, Constant.items]
  split_ifs <;> rfl

theorem length_poolItems (pool : List Constant) : (poolItems pool).length = poolSlots pool := by
  induction pool with
  | nil => rfl
  | cons k pool ih =>
      simp only [poolItems, poolSlots, List.flatMap_cons, List.length_append, List.map_cons,
        List.sum_cons, k.length_items]
      exact congrArg _ ih

theorem mem_of_entryAt {pool : List Constant} {i : ℕ} {k : Constant}
    (h : entryAt pool i = some k) : k ∈ pool := by
  induction pool generalizing i with
  | nil => cases h
  | cons d pool ih =>
      unfold entryAt at h
      split_ifs at h
      · cases h
        exact List.mem_cons_self
      · exact List.mem_cons_of_mem d (ih h)

/-- The item at the index of an entry is the first one of the entry. -/
theorem getElem?_poolItems {pool : List Constant} {i : ℕ} {k : Constant}
    (h : entryAt pool i = some k) :
    1 ≤ i ∧ i < (poolItems pool).length + 1 ∧ (poolItems pool)[i - 1]? = k.items[0]? := by
  induction pool generalizing i with
  | nil => cases h
  | cons d pool ih =>
      have hlen := d.length_items
      have hpos := d.slots_pos
      have hitems : poolItems (d :: pool) = d.items ++ poolItems pool := rfl
      unfold entryAt at h
      split_ifs at h with hone hlt
      · cases h
        rw [hone, hitems, List.length_append, Nat.sub_self, List.getElem?_append_left (by omega)]
        exact ⟨Nat.le_refl 1, by omega, rfl⟩
      · obtain ⟨hi, hbound, hitem⟩ := ih h
        rw [hitems, List.length_append, hlen]
        refine ⟨by omega, by omega, ?_⟩
        rw [List.getElem?_append_right (by omega), hlen, ← hitem]
        congr 1
        omega

/-- The item at the index of an entry of one slot is that entry. -/
theorem items_of_entryAt {pool : List Constant} {i : ℕ} {k : Constant}
    (h : entryAt pool i = some k) (hk : k.slots = 1) :
    1 ≤ i ∧ i < (poolItems pool).length + 1 ∧
      (poolItems pool)[i - 1]? = some ⟨k.poolTag, k.value⟩ := by
  obtain ⟨hi, hlt, hitem⟩ := getElem?_poolItems h
  refine ⟨hi, hlt, hitem.trans ?_⟩
  rw [k.slots_eq] at hk
  rw [Constant.items]
  split_ifs at hk ⊢
  · cases hk
  · rfl

namespace ClassFile

variable {c : ClassFile}

theorem items_read {i : BitVec 16} {k : Constant} (h : entryAt c.pool i.toNat = some k)
    (hk : k.slots = 1) :
    i ≠ 0#16 ∧ i.toNat < c.read.items.length ∧
      c.read.items[i.toNat]? = some ⟨k.poolTag, k.value⟩ := by
  obtain ⟨hpos, hlt, hitem⟩ := items_of_entryAt h hk
  obtain ⟨j, hj⟩ := Nat.exists_eq_succ_of_ne_zero (by omega : i.toNat ≠ 0)
  refine ⟨?_, hlt, ?_⟩
  · rintro rfl
    simp at hpos
  · rw [hj] at hitem ⊢
    exact hitem

theorem utf8_read (h : c.WellFormed) {i : BitVec 16} {bytes : List Byte}
    (hi : c.utf8 i = some bytes) :
    i ≠ 0#16 ∧ i.toNat < c.read.items.length ∧
      c.read.items[i.toNat]? = some ⟨.stringUtf8, .string (text bytes)⟩ := by
  unfold utf8 at hi
  split at hi
  · next bytes' hlt hentry =>
      cases hi
      have hzero : 0#8 ∉ bytes := by
        simpa [Constant.noZero] using h.no_zero _ (mem_of_entryAt hentry)
      have hitem := items_read hentry rfl
      have hall : bytes.takeWhile (· ≠ 0#8) = bytes :=
        List.takeWhile_eq_self_iff.mpr fun b hb =>
          decide_eq_true fun heq : b = 0#8 => hzero (heq ▸ hb)
      rwa [Constant.value, hall] at hitem
  · cases hi

theorem getClassName_read (h : c.WellFormed) : c.read.getClassName = c.className := by
  obtain ⟨name, hname⟩ := Option.isSome_iff_exists.mp h.className
  rw [hname]
  unfold className at hname
  split at hname
  · next i hentry =>
      obtain ⟨bytes, hbytes, rfl⟩ := Option.map_eq_some_iff.mp hname
      obtain ⟨hne, hlt, hitem⟩ := items_read hentry rfl
      obtain ⟨hne', hlt', hitem'⟩ := utf8_read h hbytes
      have hthis : c.read.thisClass = c.thisClass := rfl
      rw [ClassInfo.getClassName, if_neg (by simp only [hthis, hne, false_or]; omega), hthis,
        hitem]
      simp only [Option.bind_eq_bind, Option.bind_some, Constant.poolTag, Constant.value, ne_eq,
        not_true_eq_false, if_false, ItemValue.getRef]
      rw [if_neg (by simp only [hne', false_or]; omega), hitem']
      rfl
  · cases hname

theorem getName_read (h : c.WellFormed) {m : MemberInfo} {name : List Byte}
    (hname : c.utf8 m.name = some name) : c.read.getName m.read = some (text name) := by
  obtain ⟨hne, hlt, hitem⟩ := utf8_read h hname
  have hidx : m.read.nameIdx = m.name := rfl
  rw [ClassInfo.getName, hidx, if_neg (by simp only [hne, false_or]; omega), hitem]
  rfl

theorem getMethodSignature_read (h : c.WellFormed) {m : MemberInfo}
    (hm : m ∈ c.fields ++ c.methods) :
    c.read.getMethodSignature m.read = c.signature "" m ∧ (c.signature "" m).isSome ∧
      c.signature "" m ≠ some "" := by
  obtain ⟨name, hname, hne⟩ := h.name m hm
  obtain ⟨descriptor, hdesc⟩ := Option.isSome_iff_exists.mp (h.descriptor m hm)
  obtain ⟨-, -, hitem⟩ := utf8_read h hdesc
  have hidx : m.read.typeIdx = m.descriptor := rfl
  have hsig : c.signature "" m = some (text name ++ ("" ++ text descriptor)) := by
    simp only [signature, Option.bind_eq_bind, show c.utf8 m.name = some name from hname, hdesc,
      Option.bind_some]
    rfl
  refine ⟨?_, by simp [hsig], ?_⟩
  · rw [hsig, ClassInfo.getMethodSignature, ClassInfo.getMethodName, getName_read h hname, hidx,
      hitem]
    simp [ItemValue.getString]
  · rw [hsig]
    intro heq
    have hlist := congrArg String.toList (Option.some.inj heq)
    rw [String.toList_append, text, String.toList_ofList] at hlist
    simp [hne] at hlist

theorem getFieldSignature_read (h : c.WellFormed) {f : MemberInfo}
    (hf : f ∈ c.fields ++ c.methods) :
    c.read.getFieldSignature f.read = c.signature " " f ∧ (c.signature " " f).isSome ∧
      c.signature " " f ≠ some "" := by
  obtain ⟨name, hname, -⟩ := h.name f hf
  obtain ⟨descriptor, hdesc⟩ := Option.isSome_iff_exists.mp (h.descriptor f hf)
  obtain ⟨-, -, hitem⟩ := utf8_read h hdesc
  have hidx : f.read.typeIdx = f.descriptor := rfl
  have hsig : c.signature " " f = some (text name ++ (" " ++ text descriptor)) := by
    simp only [signature, Option.bind_eq_bind, show c.utf8 f.name = some name from hname, hdesc,
      Option.bind_some]
    rfl
  refine ⟨?_, by simp [hsig], ?_⟩
  · rw [hsig, ClassInfo.getFieldSignature, ClassInfo.getFieldName, getName_read h hname, hidx,
      hitem]
    rfl
  · rw [hsig]
    intro heq
    have hlist := congrArg String.toList (Option.some.inj heq)
    rw [String.toList_append, String.toList_append] at hlist
    simp at hlist

/-! ## Flags -/

theorem and_twoPow_ne_zero (flags : BitVec 16) {i : ℕ} (hi : i < 16) :
    (flags &&& BitVec.twoPow 16 i != 0#16) = flags.getLsbD i := by
  rw [BitVec.and_twoPow]
  cases h : flags.getLsbD i with
  | false => rfl
  | true =>
      simp only [if_true, bne_iff_ne, ne_eq, ← BitVec.toNat_inj, BitVec.toNat_twoPow]
      rw [Nat.mod_eq_of_lt (Nat.pow_lt_pow_right (by decide) hi)]
      simp

theorem isPublic_read (m : MemberInfo) : m.read.isPublic = m.isPublic :=
  and_twoPow_ne_zero m.flags (by decide : 0 < 16)

theorem isStatic_read (m : MemberInfo) : m.read.isStatic = m.isStatic :=
  and_twoPow_ne_zero m.flags (by decide : 3 < 16)

theorem isEnum_read (m : MemberInfo) : m.read.isEnum = m.isEnum :=
  and_twoPow_ne_zero m.flags (by decide : 14 < 16)

end ClassFile

end Llxvm.Jreflect
