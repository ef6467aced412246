import Llxvm.Jlinker.LibraryMaps

/-!
# Bounds of the symbol accessors

The items of whatever is accepted hold the alternatives that their tags imply.  The accessors
look at every index before they follow it, but for those of the descriptors.
-/

namespace Llxvm.Jreflect

open StreamReader

/-! ## Tags and alternatives -/

/-- The alternative that is stored under a tag. -/
def ConstantPoolTag.Implies : ConstantPoolTag → ItemValue → Prop
  | .stringUtf8, .string _ => True
  | .integer, .int _ => True
  | .float, .float _ => True
  | .long, .long _ _ => True
  | .double, .double _ _ => True
  | .classRef, .ref _ => True
  | .string, .ref _ => True
  | .field, .ref _ => True
  | .method, .ref _ => True
  | .interfaceMethod, .ref _ => True
  | .name, .ref _ => True
  | .invokeDynamic, .ref _ => True
  | .methodHandle, .ref _ => True
  | .none, .string _ => True
  | _, _ => False

def Item.Tagged (item : Item) : Prop := item.tag.Implies item.value

theorem Item.tagged_empty : Item.empty.Tagged := trivial

variable {s s' : StreamReader.Stream Byte (BitVec 32)}

theorem readItem_implies {tag : ConstantPoolTag}
    {value : ItemValue} {size : ℕ} (h : readItem tag s = some (some (value, size), s')) :
    tag.Implies value := by
  cases tag with
  | none => cases h
  | methodType => cases h
  | _ =>
      simp only [readItem, readRef, read_bind, read_pure, Option.bind_eq_some_iff,
        Option.some.injEq, Prod.mk.injEq, Prod.exists] at h
      grind [ConstantPoolTag.Implies]

/-- The loop stores an item with the tag that has chosen its decoder. -/
theorem parseItems_tagged {n : ℕ} {items items' : List Item} {size size' : ℕ}
    (hitems : ∀ item ∈ items, item.Tagged)
    (h : parseItems n items size s = some (some (items', size'), s')) :
    ∀ item ∈ items', item.Tagged := by
  induction n using Nat.strongRecOn generalizing items size s with
  | ind n ih =>
      cases n with
      | zero =>
          cases h
          exact hitems
      | succ n =>
          rw [parseItems, read_bind] at h
          obtain ⟨⟨t, s₁⟩, -, h⟩ := Option.bind_eq_some_iff.mp h
          simp only at h
          split_ifs at h
          · cases h
            exact hitems
          · cases hof : ConstantPoolTag.ofByte t with
            | none =>
                rw [hof] at h
                cases h
            | some tag =>
                rw [hof] at h
                simp only [read_bind] at h
                obtain ⟨⟨_ | ⟨value, more⟩, s₂⟩, hitem, h⟩ := Option.bind_eq_some_iff.mp h
                · cases h
                · have hnew : Item.Tagged ⟨tag, value⟩ := readItem_implies hitem
                  have hone : ∀ item ∈ items ++ [⟨tag, value⟩], item.Tagged := by
                    simpa [or_imp, forall_and] using ⟨hitems, hnew⟩
                  have htwo : ∀ item ∈ items ++ [.empty, ⟨tag, value⟩], item.Tagged := by
                    simpa [or_imp, forall_and] using ⟨hitems, Item.tagged_empty, hnew⟩
                  simp only at h
                  split_ifs at h
                  · cases n with
                    | zero =>
                        cases h
                        exact htwo
                    | succ n => exact ih n (by omega) htwo h
                  · exact ih n (by omega) hone h

theorem readBody_items {ci ci' : ClassInfo}
    (h : readBody ci s = some (ci', s')) : ci'.items = ci.items := by
  simp only [readBody, read_bind, read_pure, Option.bind_eq_some_iff, Option.some.injEq,
    Prod.mk.injEq, Prod.exists] at h
  obtain ⟨_, _, -, _, _, -, _, _, -, _, _, -, _, _, -, _, _, -, _, _, -, rfl, -⟩ := h
  rfl

/-- Whatever is accepted has the alternatives of the tags. -/
theorem read_tagged {ci : ClassInfo}
    (h : read s = some (some ci, s')) : ∀ item ∈ ci.items, item.Tagged := by
  rw [read, read_bind] at h
  obtain ⟨⟨_ | _, s₁⟩, -, h⟩ := Option.bind_eq_some_iff.mp h
  · cases h
  · simp only [if_true, read_bind] at h
    obtain ⟨⟨⟨minor, major, count⟩, s₂⟩, -, h⟩ := Option.bind_eq_some_iff.mp h
    simp only [readClass, read_bind] at h
    obtain ⟨⟨_ | ⟨items, size⟩, s₃⟩, hpool, h⟩ := Option.bind_eq_some_iff.mp h
    · cases h
    · simp only at h
      split_ifs at h
      · cases h
      · rw [read_bind] at h
        obtain ⟨⟨ci', s₄⟩, hbody, h⟩ := Option.bind_eq_some_iff.mp h
        cases h
        rw [readBody_items hbody]
        exact parseItems_tagged (by simpa using Item.tagged_empty) hpool

theorem Item.Tagged.getString {item : Item} (h : item.Tagged) (htag : item.tag = .stringUtf8) :
    item.value.getString.isSome := by
  obtain ⟨tag, value⟩ := item
  cases htag
  cases value with
  | string s => rfl
  | _ => cases h

theorem Item.Tagged.getRef {item : Item} (h : item.Tagged) (htag : item.tag = .classRef) :
    item.value.getRef.isSome := by
  obtain ⟨tag, value⟩ := item
  cases htag
  cases value with
  | ref r => rfl
  | _ => cases h

/-! ## Accessors -/

namespace ClassInfo

variable {ci : ClassInfo}

/-- The string under a guarded index. -/
theorem isSome_stringAt (h : ∀ item ∈ ci.items, item.Tagged) {i : ℕ} (hi : i < ci.items.length) :
    (do
      let item ← ci.items[i]?
      if item.tag ≠ .stringUtf8 then return ""
      else item.value.getString : Option String).isSome := by
  rw [List.getElem?_eq_getElem hi]
  simp only [Option.bind_eq_bind, Option.bind_some]
  split_ifs with htag
  · rfl
  · exact (h _ (List.getElem_mem hi)).getString (not_not.mp htag)

theorem isSome_getClassName (h : ∀ item ∈ ci.items, item.Tagged) : ci.getClassName.isSome := by
  unfold getClassName
  split_ifs with hthis
  · rfl
  · push Not at hthis
    rw [List.getElem?_eq_getElem hthis.2.2]
    simp only [Option.bind_eq_bind, Option.bind_some]
    split_ifs with htag
    · rfl
    · obtain ⟨r, hr⟩ := Option.isSome_iff_exists.mp
        ((h _ (List.getElem_mem hthis.2.2)).getRef (not_not.mp htag))
      rw [hr, Option.bind_some]
      split_ifs with hidx
      · rfl
      · push Not at hidx
        exact isSome_stringAt h hidx.2

theorem isSome_getName (h : ∀ item ∈ ci.items, item.Tagged) (m : Member) :
    (ci.getName m).isSome := by
  unfold getName
  split_ifs with hname
  · rfl
  · push Not at hname
    exact isSome_stringAt h hname.2

/-- The index of the descriptor has no guard. -/
theorem isSome_getMethodSignature (h : ∀ item ∈ ci.items, item.Tagged) (m : Member) :
    (ci.getMethodSignature m).isSome ↔ m.typeIdx.toNat < ci.items.length := by
  obtain ⟨name, hname⟩ := Option.isSome_iff_exists.mp (isSome_getName h m)
  rw [getMethodSignature, getMethodName, hname]
  simp only [Option.bind_eq_bind, Option.bind_some]
  constructor
  · intro hsome
    by_contra hlt
    rw [List.getElem?_eq_none (Nat.not_lt.mp hlt)] at hsome
    cases hsome
  · intro hlt
    rw [List.getElem?_eq_getElem hlt, Option.bind_some]
    split_ifs with htag
    · rfl
    · rw [Option.isSome_bind]
      simpa using (h _ (List.getElem_mem hlt)).getString (not_not.mp htag)

theorem isSome_getFieldSignature (h : ∀ item ∈ ci.items, item.Tagged) (f : Member) :
    (ci.getFieldSignature f).isSome ↔ f.typeIdx.toNat < ci.items.length := by
  rw [← isSome_getMethodSignature h f, getFieldSignature, getMethodSignature]
  obtain ⟨name, hname⟩ := Option.isSome_iff_exists.mp (isSome_getName h f)
  rw [getMethodName, getFieldName, hname]
  simp only [Option.bind_eq_bind, Option.bind_some, Option.isSome_bind]
  cases ci.items[f.typeIdx.toNat]? with
  | none => rfl
  | some item =>
      simp only [Option.any_some]
      split_ifs
      · rfl
      · cases item.value.getString with
        | none => rfl
        | some s => rfl

/-- The accessors stay in bounds, and extract the alternatives that are there. -/
structure SafeSymbols (ci : ClassInfo) : Prop where
  className : ci.getClassName.isSome
  methods : ∀ m ∈ ci.methods, (ci.getMethodSignature m).isSome
  fields : ∀ f ∈ ci.fields, (ci.getFieldSignature f).isSome

/-- The descriptor of the member has an item. -/
def HasDescriptor (ci : ClassInfo) (m : Member) : Prop := m.typeIdx.toNat < ci.items.length

instance (m : Member) : Decidable (ci.HasDescriptor m) := inferInstanceAs (Decidable (_ < _))

theorem safeSymbols_iff (h : ∀ item ∈ ci.items, item.Tagged) :
    ci.SafeSymbols ↔ ∀ m ∈ ci.methods ++ ci.fields, ci.HasDescriptor m := by
  constructor
  · intro hsafe m hm
    rcases List.mem_append.mp hm with hm | hm
    · exact (isSome_getMethodSignature h m).mp (hsafe.methods m hm)
    · exact (isSome_getFieldSignature h m).mp (hsafe.fields m hm)
  · intro hall
    refine ⟨isSome_getClassName h, fun m hm => ?_, fun f hf => ?_⟩
    · exact (isSome_getMethodSignature h m).mpr (hall m (List.mem_append_left _ hm))
    · exact (isSome_getFieldSignature h f).mpr (hall f (List.mem_append_right _ hf))

end ClassInfo

end Llxvm.Jreflect

namespace Llxvm.Jlinker

open Llxvm.Jreflect StreamReader

/-! ## The loops of the maps -/

theorem isSome_addMembers (kind : MemberKind) (ci : ClassInfo) (classname : String)
    (ms : List Member) (map : ClassMap) :
    (addMembers kind ci classname ms map).isSome ↔
      ∀ m ∈ ms, kind.wanted m → (kind.signature ci m).isSome := by
  induction ms generalizing map with
  | nil => simp [addMembers]
  | cons m ms ih =>
      rw [addMembers, List.forall_mem_cons]
      split_ifs with hwanted
      · cases hsig : kind.signature ci m with
        | none => simp [hwanted]
        | some sig =>
            rw [Option.bind_eq_bind, Option.bind_some, ih]
            simp
      · rw [ih]
        simp [hwanted]

/-- The accessors that the loops call are those of the wanted members. -/
theorem isSome_buildMap (kind : MemberKind) (infos : List ClassInfo) (map : ClassMap) :
    (buildMap kind infos map).isSome ↔ ∀ ci ∈ infos, ci.getClassName.isSome ∧
      ∀ m ∈ kind.members ci, kind.wanted m → (kind.signature ci m).isSome := by
  induction infos generalizing map with
  | nil => simp [buildMap]
  | cons ci infos ih =>
      rw [buildMap, List.forall_mem_cons]
      cases hname : ci.getClassName with
      | none => simp
      | some classname =>
          have hadd := isSome_addMembers kind ci classname (kind.members ci) map
          rw [Option.bind_eq_bind, Option.bind_some, ← hadd]
          cases addMembers kind ci classname (kind.members ci) map with
          | none => simp
          | some map' =>
              rw [Option.bind_eq_bind, Option.bind_some, ih]
              simp

/-- Whatever is accepted, the accessors go wrong exactly at the members whose descriptors have no
item, and so do the loops, which call them for the public static members. -/
theorem symbols_in_bounds_iff {s s' : StreamReader.Stream Byte (BitVec 32)} {ci : ClassInfo}
    (h : Jreflect.read s = some (some ci, s')) :
    (ci.SafeSymbols ↔ ∀ m ∈ ci.methods ++ ci.fields, ci.HasDescriptor m) ∧
      ∀ methods fields, (buildMethodMap [ci] methods).isSome ∧ (buildFieldMap [ci] fields).isSome ↔
        (∀ m ∈ ci.methods, methodKind.wanted m → ci.HasDescriptor m) ∧
          ∀ f ∈ ci.fields, fieldKind.wanted f → ci.HasDescriptor f := by
  have htagged := read_tagged h
  refine ⟨ClassInfo.safeSymbols_iff htagged, fun methods fields => ?_⟩
  have hmethod : ∀ m, (methodKind.signature ci m).isSome ↔ ci.HasDescriptor m :=
    ClassInfo.isSome_getMethodSignature htagged
  have hfield : ∀ f, (fieldKind.signature ci f).isSome ↔ ci.HasDescriptor f :=
    ClassInfo.isSome_getFieldSignature htagged
  rw [buildMethodMap, buildFieldMap, isSome_buildMap, isSome_buildMap, List.forall_mem_singleton,
    List.forall_mem_singleton]
  simp only [ClassInfo.isSome_getClassName htagged, true_and, hmethod, hfield]
  rfl

/-- `classA`, with an index for the descriptor of its method. -/
def classD (descriptor : BitVec 16) : ClassFile :=
  { classA [] length_nil_lt with
    methods := [⟨9#16, 3#16, descriptor, [], length_nil_lt⟩]
    methods_lt := by simp }

theorem read_classD (descriptor : BitVec 16) (u : ℕ → BitVec 32) :
    Jreflect.read ⟨(classD descriptor).bytes, u⟩ =
      some (some (classD descriptor).read, ⟨[], u⟩) := by
  have hreadable : (classD descriptor).Readable :=
    ⟨by simp [classD, classA], by simp [classD, classA, Constant.isMethodType]⟩
  have hfits : (classD descriptor).Fits := by
    simp [ClassFile.Fits, ClassFile.allAttributes, classD, classA]
  have hread := ClassFile.reads_read hreadable hfits [] u
  rwa [List.append_nil] at hread

theorem symbols_in_bounds_classD : (classD 4#16).read.SafeSymbols :=
  (symbols_in_bounds_iff (read_classD 4#16 fun _ => 0#32)).1.mpr (by
    intro m hm
    rw [show (classD 4#16).read.methods ++ (classD 4#16).read.fields =
      [⟨9#16, 3#16, 4#16, []⟩] from rfl, List.mem_singleton] at hm
    subst hm
    decide)

/-- The descriptor of the method is behind the last item. -/
theorem not_safeSymbols_classD : (∃ s, Jreflect.read ⟨(classD 5#16).bytes, fun _ => 0#32⟩ =
      some (some (classD 5#16).read, s)) ∧
    ¬ (classD 5#16).read.SafeSymbols ∧ buildMethodMap [(classD 5#16).read] [] = none := by
  refine ⟨⟨_, read_classD 5#16 _⟩, fun hsafe => ?_, by decide +kernel⟩
  have hsome := hsafe.methods ⟨9#16, 3#16, 5#16, []⟩ List.mem_cons_self
  revert hsome
  decide +kernel

end Llxvm.Jlinker
