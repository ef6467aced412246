import Mathlib.Algebra.Order.Ring.Nat
import Mathlib.Data.List.Forall2
import Mathlib.Data.Nat.Cast.Order.Ring
import Mathlib.Data.String.Basic
import Llxvm.Jreflect.ClassInfo
import Llxvm.Lib.OrderedMap

/-!
# The maps of the libraries

`buildMethodMap` and `buildFieldMap`: from the signatures of the public static members of the
library classes to the names of the classes.
-/

namespace Llxvm.Jlinker

open Llxvm.Jreflect StreamReader

abbrev ClassMap := OrderedMap String String

/-! ## The loops -/

/-- What makes the maps of methods and of fields different. -/
structure MemberKind where
  members : ClassInfo → List Member
  wanted : Member → Bool
  signature : ClassInfo → Member → Option String

def methodKind : MemberKind where
  members := ClassInfo.methods
  wanted m := m.isPublic && m.isStatic
  signature := ClassInfo.getMethodSignature

def fieldKind : MemberKind where
  members := ClassInfo.fields
  wanted f := f.isPublic && f.isStatic && !f.isEnum
  signature := ClassInfo.getFieldSignature

/-- The inner loop, over the members of a class. -/
def addMembers (kind : MemberKind) (ci : ClassInfo) (classname : String) :
    List Member → ClassMap → Option ClassMap
  | [], map => some map
  | m :: ms, map =>
      if kind.wanted m then do
        let sig ← kind.signature ci m
        addMembers kind ci classname ms (if sig = "" then map else map.insert sig classname)
      else addMembers kind ci classname ms map

/-- The outer loop, over `lib_classes`. -/
def buildMap (kind : MemberKind) : List ClassInfo → ClassMap → Option ClassMap
  | [], map => some map
  | ci :: cis, map => do
    let classname ← ci.getClassName
    buildMap kind cis (← addMembers kind ci classname (kind.members ci) map)

def buildMethodMap : List ClassInfo → ClassMap → Option ClassMap := buildMap methodKind
def buildFieldMap : List ClassInfo → ClassMap → Option ClassMap := buildMap fieldKind

/-! ## What the loops add -/

/-- The members have signatures, and those that are wanted are not empty. -/
def Named (kind : MemberKind) (ci : ClassInfo) : Prop :=
  ci.getClassName.isSome ∧ ∀ m ∈ kind.members ci, kind.wanted m →
    (kind.signature ci m).isSome ∧ kind.signature ci m ≠ some ""

/-- The class has a wanted member with the signature. -/
def Provides (kind : MemberKind) (ci : ClassInfo) (sig : String) : Prop :=
  ∃ m ∈ kind.members ci, kind.wanted m ∧ kind.signature ci m = some sig

theorem addMembers_spec {kind : MemberKind} {ci : ClassInfo} (classname : String)
    {ms : List Member} (h : ∀ m ∈ ms, kind.wanted m →
      (kind.signature ci m).isSome ∧ kind.signature ci m ≠ some "") (map : ClassMap) :
    ∃ map', addMembers kind ci classname ms map = some map' ∧ ∀ sig,
      map'.find sig = some classname ∧ (∃ m ∈ ms, kind.wanted m ∧ kind.signature ci m = some sig) ∨
      map'.find sig = map.find sig ∧
        ¬ ∃ m ∈ ms, kind.wanted m ∧ kind.signature ci m = some sig := by
  induction ms generalizing map with
  | nil => exact ⟨map, rfl, fun sig => .inr ⟨rfl, by simp⟩⟩
  | cons m ms ih =>
      have htail : ∀ m ∈ ms, kind.wanted m →
          (kind.signature ci m).isSome ∧ kind.signature ci m ≠ some "" :=
        fun m' hm' => h m' (List.mem_cons_of_mem m hm')
      unfold addMembers
      by_cases hwanted : kind.wanted m
      · obtain ⟨hsome, hne⟩ := h m List.mem_cons_self hwanted
        obtain ⟨s, hs⟩ := Option.isSome_iff_exists.mp hsome
        have hs' : s ≠ "" := fun heq => hne (heq ▸ hs)
        obtain ⟨map', hrun, hfind⟩ := ih htail (map.insert s classname)
        refine ⟨map', ?_, fun sig => ?_⟩
        · rw [if_pos hwanted]
          simp only [hs, Option.bind_eq_bind, Option.bind_some, if_neg hs', hrun]
        · rcases hfind sig with ⟨hv, m', hm', hsig⟩ | ⟨hv, hnot⟩
          · exact .inl ⟨hv, m', List.mem_cons_of_mem m hm', hsig⟩
          · rw [OrderedMap.find_insert] at hv
            by_cases heq : sig = s
            · rw [if_pos heq] at hv
              exact .inl ⟨hv, m, List.mem_cons_self, hwanted, heq ▸ hs⟩
            · rw [if_neg heq] at hv
              refine .inr ⟨hv, ?_⟩
              rintro ⟨m', hm', hwanted', hsig⟩
              rcases List.mem_cons.mp hm' with rfl | hm'
              · exact heq (Option.some.inj (hsig.symm.trans hs))
              · exact hnot ⟨m', hm', hwanted', hsig⟩
      · obtain ⟨map', hrun, hfind⟩ := ih htail map
        refine ⟨map', by rw [if_neg hwanted, hrun], fun sig => ?_⟩
        rcases hfind sig with ⟨hv, m', hm', hsig⟩ | ⟨hv, hnot⟩
        · exact .inl ⟨hv, m', List.mem_cons_of_mem m hm', hsig⟩
        · refine .inr ⟨hv, ?_⟩
          rintro ⟨m', hm', hwanted', hsig⟩
          rcases List.mem_cons.mp hm' with rfl | hm'
          · exact hwanted hwanted'
          · exact hnot ⟨m', hm', hwanted', hsig⟩

/-- A signature is mapped to the last class that provides it, or as before. -/
theorem buildMap_spec {kind : MemberKind} {infos : List ClassInfo}
    (h : ∀ ci ∈ infos, Named kind ci) (map : ClassMap) :
    ∃ map', buildMap kind infos map = some map' ∧ ∀ sig,
      (∃ ci ∈ infos, Provides kind ci sig ∧ map'.find sig = ci.getClassName) ∨
      map'.find sig = map.find sig ∧ ¬ ∃ ci ∈ infos, Provides kind ci sig := by
  induction infos generalizing map with
  | nil => exact ⟨map, rfl, fun sig => .inr ⟨rfl, by simp⟩⟩
  | cons ci infos ih =>
      obtain ⟨hname, hmembers⟩ := h ci List.mem_cons_self
      obtain ⟨classname, hclassname⟩ := Option.isSome_iff_exists.mp hname
      obtain ⟨map₁, hadd, hfind₁⟩ := addMembers_spec classname hmembers map
      obtain ⟨map', hrun, hfind⟩ := ih (fun c hc => h c (List.mem_cons_of_mem ci hc)) map₁
      refine ⟨map', ?_, fun sig => ?_⟩
      · simp only [buildMap, hclassname, hadd, Option.bind_eq_bind, Option.bind_some, hrun]
      · rcases hfind sig with ⟨c, hc, hprovides, hv⟩ | ⟨hv, hnot⟩
        · exact .inl ⟨c, List.mem_cons_of_mem ci hc, hprovides, hv⟩
        · rcases hfind₁ sig with ⟨hv₁, hprovides⟩ | ⟨hv₁, hnot₁⟩
          · exact .inl ⟨ci, List.mem_cons_self, hprovides, by rw [hv, hv₁, hclassname]⟩
          · refine .inr ⟨hv.trans hv₁, ?_⟩
            rintro ⟨c, hc, hprovides⟩
            rcases List.mem_cons.mp hc with rfl | hc
            · exact hnot₁ hprovides
            · exact hnot ⟨c, hc, hprovides⟩

/-! ## From class files to maps -/

/-- What is asked of the class files of a library. -/
structure Linkable (c : ClassFile) : Prop where
  wellFormed : c.WellFormed
  no_methodType : ∀ k ∈ c.pool, k.isMethodType = false
  attributes_lt : ∀ a ∈ c.allAttributes, a.info.length < 2 ^ 31

/-- The keys of the map are the signatures of the members, and each is mapped to a class that
declares it. -/
structure ExactMap (cs : List ClassFile) (members : ClassFile → List MemberInfo) (sep : String)
    (map : ClassMap) : Prop where
  keys : ∀ sig, (map.find sig).isSome ↔ ∃ c ∈ cs, ∃ m ∈ members c, c.signature sep m = some sig
  values : ∀ sig name, map.find sig = some name →
    ∃ c ∈ cs, c.className = some name ∧ ∃ m ∈ members c, c.signature sep m = some sig

/-- The classes are read under their names, and the maps have their members. -/
def Decodes (cs : List ClassFile) : Prop :=
  ∃ infos, List.Forall₂ (fun c ci => (∀ u, ∃ s, Jreflect.read ⟨c.bytes, u⟩ = some (some ci, s)) ∧
      ci.getClassName = c.className) cs infos ∧
    ∃ methods fields, buildMethodMap infos [] = some methods ∧
      ExactMap cs ClassFile.linkableMethods "" methods ∧ buildFieldMap infos [] = some fields ∧
      ExactMap cs ClassFile.linkableFields " " fields

section linkable

variable {c : ClassFile}

theorem Linkable.readable (h : Linkable c) : c.Readable where
  pool_ne := by
    intro hnil
    have hname := h.wellFormed.className
    simp [ClassFile.className, hnil, entryAt] at hname
  no_methodType := h.no_methodType

theorem Linkable.fits_iff (h : Linkable c) :
    c.Fits ↔ ∀ a ∈ c.allAttributes, a.info.length ≠ 2 ^ 31 - 1 := by
  constructor
  · intro hfits a ha
    exact (hfits a ha).ne
  · intro hne a ha
    have hlt := h.attributes_lt a ha
    have hneq := hne a ha
    change a.info.length < 2 ^ 31 - 1
    omega

theorem named_method (h : c.WellFormed) : Named methodKind c.read := by
  refine ⟨by rw [ClassFile.getClassName_read h]; exact h.className, ?_⟩
  intro _ hread _
  obtain ⟨m, hm, rfl⟩ := List.mem_map.mp hread
  obtain ⟨hsig, hsome, hne⟩ :=
    ClassFile.getMethodSignature_read h (List.mem_append_right _ hm)
  rw [show methodKind.signature c.read m.read = _ from hsig]
  exact ⟨hsome, hne⟩

theorem named_field (h : c.WellFormed) : Named fieldKind c.read := by
  refine ⟨by rw [ClassFile.getClassName_read h]; exact h.className, ?_⟩
  intro _ hread _
  obtain ⟨f, hf, rfl⟩ := List.mem_map.mp hread
  obtain ⟨hsig, hsome, hne⟩ :=
    ClassFile.getFieldSignature_read h (List.mem_append_left _ hf)
  rw [show fieldKind.signature c.read f.read = _ from hsig]
  exact ⟨hsome, hne⟩

theorem provides_method_iff (h : c.WellFormed) (sig : String) :
    Provides methodKind c.read sig ↔ ∃ m ∈ c.linkableMethods, c.signature "" m = some sig := by
  constructor
  · rintro ⟨_, hread, hwanted, hsig⟩
    obtain ⟨m, hm, rfl⟩ := List.mem_map.mp hread
    rw [show methodKind.signature c.read m.read = _ from
      (ClassFile.getMethodSignature_read h (List.mem_append_right _ hm)).1] at hsig
    exact ⟨m, List.mem_filter.mpr ⟨hm, by
      simpa [methodKind, ClassFile.isPublic_read, ClassFile.isStatic_read] using hwanted⟩,
      hsig⟩
  · rintro ⟨m, hm, hsig⟩
    obtain ⟨hm, hwanted⟩ := List.mem_filter.mp hm
    refine ⟨m.read, List.mem_map_of_mem hm, ?_, ?_⟩
    · simpa [methodKind, ClassFile.isPublic_read, ClassFile.isStatic_read] using hwanted
    · rw [show methodKind.signature c.read m.read = _ from
        (ClassFile.getMethodSignature_read h (List.mem_append_right _ hm)).1, hsig]

theorem provides_field_iff (h : c.WellFormed) (sig : String) :
    Provides fieldKind c.read sig ↔ ∃ f ∈ c.linkableFields, c.signature " " f = some sig := by
  constructor
  · rintro ⟨_, hread, hwanted, hsig⟩
    obtain ⟨f, hf, rfl⟩ := List.mem_map.mp hread
    rw [show fieldKind.signature c.read f.read = _ from
      (ClassFile.getFieldSignature_read h (List.mem_append_left _ hf)).1] at hsig
    exact ⟨f, List.mem_filter.mpr ⟨hf, by
      simpa [fieldKind, ClassFile.isPublic_read, ClassFile.isStatic_read, ClassFile.isEnum_read]
        using hwanted⟩, hsig⟩
  · rintro ⟨f, hf, hsig⟩
    obtain ⟨hf, hwanted⟩ := List.mem_filter.mp hf
    refine ⟨f.read, List.mem_map_of_mem hf, ?_, ?_⟩
    · simpa [fieldKind, ClassFile.isPublic_read, ClassFile.isStatic_read, ClassFile.isEnum_read]
      using hwanted
    · rw [show fieldKind.signature c.read f.read = _ from
        (ClassFile.getFieldSignature_read h (List.mem_append_left _ hf)).1, hsig]

end linkable

/-- A map that is built from an empty one has the members of the classes. -/
theorem exactMap_of_buildMap {kind : MemberKind} {members : ClassFile → List MemberInfo}
    {sep : String} {cs : List ClassFile} (hnames : ∀ c ∈ cs, Named kind c.read)
    (hprovides : ∀ c ∈ cs, ∀ sig, Provides kind c.read sig ↔
      ∃ m ∈ members c, c.signature sep m = some sig)
    (hclass : ∀ c ∈ cs, c.read.getClassName = c.className) :
    ∃ map, buildMap kind (cs.map ClassFile.read) [] = some map ∧ ExactMap cs members sep map := by
  have hnamed : ∀ ci ∈ cs.map ClassFile.read, Named kind ci := by
    intro ci hci
    obtain ⟨c, hc, rfl⟩ := List.mem_map.mp hci
    exact hnames c hc
  obtain ⟨map, hrun, hfind⟩ := buildMap_spec hnamed []
  refine ⟨map, hrun, ⟨fun sig => ⟨fun hsome => ?_, ?_⟩, fun sig name hname => ?_⟩⟩
  · rcases hfind sig with ⟨ci, hci, hprov, -⟩ | ⟨hnone, -⟩
    · obtain ⟨c, hc, rfl⟩ := List.mem_map.mp hci
      exact ⟨c, hc, (hprovides c hc sig).mp hprov⟩
    · rw [hnone] at hsome
      cases hsome
  · rintro ⟨c, hc, hm⟩
    have hprov := (hprovides c hc sig).mpr hm
    rcases hfind sig with ⟨ci, hci, -, hv⟩ | ⟨-, hnot⟩
    · obtain ⟨c', hc', rfl⟩ := List.mem_map.mp hci
      rw [hv]
      exact (hnames c' hc').1
    · exact (hnot ⟨c.read, List.mem_map_of_mem hc, hprov⟩).elim
  · rcases hfind sig with ⟨ci, hci, hprov, hv⟩ | ⟨hnone, -⟩
    · obtain ⟨c, hc, rfl⟩ := List.mem_map.mp hci
      refine ⟨c, hc, ?_, (hprovides c hc sig).mp hprov⟩
      rw [← hclass c hc, ← hv, hname]
    · rw [hnone] at hname
      cases hname

theorem Decodes.fits {cs : List ClassFile} (h : Decodes cs) {c : ClassFile} (hc : c ∈ cs)
    (hreadable : c.Readable) : c.Fits := by
  obtain ⟨infos, hinfos, -⟩ := h
  by_contra hfits
  obtain ⟨ci, hread⟩ : ∃ ci, ∀ u, ∃ s, Jreflect.read ⟨c.bytes, u⟩ = some (some ci, s) := by
    induction hinfos with
    | nil => cases hc
    | @cons c' ci cs infos hhead _ ih =>
        rcases List.mem_cons.mp hc with rfl | hc
        · exact ⟨ci, hhead.1⟩
        · exact ih hc
  obtain ⟨s, hs⟩ := hread fun _ => 0#32
  have hfails := ClassFile.fails_read hreadable hfits [] fun _ => 0#32
  rw [List.append_nil, hs] at hfails
  cases hfails

/-- Class files are decoded exactly when none of their attributes has `2 ^ 31 - 1` bytes. -/
theorem decodes_iff (cs : List ClassFile) (hcs : ∀ c ∈ cs, Linkable c) :
    Decodes cs ↔ ∀ c ∈ cs, ∀ a ∈ c.allAttributes, a.info.length ≠ 2 ^ 31 - 1 := by
  constructor
  · intro h c hc
    exact (hcs c hc).fits_iff.mp (h.fits hc (hcs c hc).readable)
  · intro hfits
    obtain ⟨methods, hmethods, hexact⟩ :=
      exactMap_of_buildMap (fun c hc => named_method (hcs c hc).wellFormed)
        (fun c hc => provides_method_iff (hcs c hc).wellFormed)
        fun c hc => ClassFile.getClassName_read (hcs c hc).wellFormed
    obtain ⟨fields, hfields, hexact'⟩ :=
      exactMap_of_buildMap (fun c hc => named_field (hcs c hc).wellFormed)
        (fun c hc => provides_field_iff (hcs c hc).wellFormed)
        fun c hc => ClassFile.getClassName_read (hcs c hc).wellFormed
    refine ⟨cs.map ClassFile.read, ?_, methods, fields, hmethods, hexact, hfields, hexact'⟩
    rw [List.forall₂_map_right_iff, List.forall₂_same]
    intro c hc
    refine ⟨fun u => ?_, ClassFile.getClassName_read (hcs c hc).wellFormed⟩
    have hread :=
      ClassFile.reads_read (hcs c hc).readable ((hcs c hc).fits_iff.mpr (hfits c hc)) [] u
    rw [List.append_nil] at hread
    exact ⟨_, hread⟩

/-- `public class A`, with the method `public static void f()` and the given attributes. -/
def classA (attributes : List AttributeInfo) (h : attributes.length < 2 ^ 16) : ClassFile where
  minorVersion := 0#16
  majorVersion := 50#16
  pool := [.classInfo 2#16, .utf8 [65#8] (by decide), .utf8 [102#8] (by decide),
    .utf8 [40#8, 41#8, 86#8] (by decide)]
  flags := 1#16
  thisClass := 1#16
  superClass := 0#16
  interfaces := []
  fields := []
  methods := [⟨9#16, 3#16, 4#16, [], length_nil_lt⟩]
  attributes := attributes
  pool_lt := by decide
  interfaces_lt := length_noInterfaces_lt
  fields_lt := length_nil_lt
  methods_lt := by decide
  attributes_lt := h

theorem linkable_classA {attributes : List AttributeInfo} (h : attributes.length < 2 ^ 16)
    (hlt : ∀ a ∈ attributes, a.info.length < 2 ^ 31) : Linkable (classA attributes h) where
  wellFormed := by
    refine ⟨rfl, ?_, ?_, by simp [classA, Constant.noZero]⟩
    · intro m hm
      obtain rfl := List.mem_singleton.mp hm
      exact ⟨[102#8], rfl, by simp⟩
    · intro m hm
      obtain rfl := List.mem_singleton.mp hm
      rfl
  no_methodType := by simp [classA, Constant.isMethodType]
  attributes_lt := by simpa [classA, ClassFile.allAttributes] using hlt

/-- `public class L`, with the field `public static final long x = 1`, the method
`public static void f()` and the name of a source file. -/
def classL : ClassFile where
  minorVersion := 0#16
  majorVersion := 50#16
  pool := [.classInfo 2#16, .utf8 [76#8] (by decide), .long 0#32 1#32, .utf8 [120#8] (by decide),
    .utf8 [74#8] (by decide),
    .utf8 [67#8, 111#8, 110#8, 115#8, 116#8, 97#8, 110#8, 116#8, 86#8, 97#8, 108#8, 117#8,
      101#8] (by decide), .utf8 [102#8] (by decide), .utf8 [40#8, 41#8, 86#8] (by decide),
    .utf8 [83#8, 111#8, 117#8, 114#8, 99#8, 101#8, 70#8, 105#8, 108#8, 101#8] (by decide),
    .utf8 [76#8, 46#8, 106#8, 97#8, 118#8, 97#8] (by decide),
    .utf8 [67#8, 111#8, 100#8, 101#8] (by decide)]
  flags := 1#16
  thisClass := 1#16
  superClass := 0#16
  interfaces := []
  fields := [⟨25#16, 5#16, 6#16, [⟨7#16, [0#8, 3#8], by decide⟩], by decide⟩]
  methods := [⟨9#16, 8#16, 9#16, [⟨12#16,
    [0#8, 0#8, 0#8, 0#8, 0#8, 0#8, 0#8, 1#8, 177#8, 0#8, 0#8, 0#8, 0#8], by decide⟩], by decide⟩]
  attributes := [⟨10#16, [0#8, 11#8], by decide⟩]
  pool_lt := by decide
  interfaces_lt := length_noInterfaces_lt
  fields_lt := by decide
  methods_lt := by decide
  attributes_lt := by decide

theorem linkable_classL : Linkable classL where
  wellFormed := by
    refine ⟨rfl, ?_, ?_, by simp [classL, Constant.noZero]⟩
    · intro m hm
      simp only [classL, List.cons_append, List.nil_append, List.mem_cons, List.not_mem_nil,
        or_false] at hm
      rcases hm with rfl | rfl
      · exact ⟨[120#8], rfl, by simp⟩
      · exact ⟨[102#8], rfl, by simp⟩
    · intro m hm
      simp only [classL, List.cons_append, List.nil_append, List.mem_cons, List.not_mem_nil,
        or_false] at hm
      rcases hm with rfl | rfl <;> rfl
  no_methodType := by simp [classL, Constant.isMethodType]
  attributes_lt := by simp [classL, ClassFile.allAttributes]

theorem decodes_classL : Decodes [classA [] (by decide), classL] :=
  (decodes_iff [classA [] (by decide), classL]
    (by simpa using ⟨linkable_classA (by decide) (by simp), linkable_classL⟩)).mpr
    (by simp [classA, classL, ClassFile.allAttributes])

/-- An attribute of `n` zeros. -/
def zeros (n : ℕ) (h : n < 2 ^ 32) : AttributeInfo :=
  ⟨0#16, List.replicate n 0#8, by rwa [List.length_replicate]⟩

theorem not_decodes_zeros {n : ℕ} (h : n < 2 ^ 32) (hlt : n < 2 ^ 31) (hle : 2 ^ 31 - 1 ≤ n) :
    Linkable (classA [zeros n h] (by simp)) ∧ ¬ Decodes [classA [zeros n h] (by simp)] := by
  have hlen : (zeros n h).info.length = n := List.length_replicate
  have hlink : Linkable (classA [zeros n h] (by simp)) := by
    refine linkable_classA _ fun a ha => ?_
    rw [List.mem_singleton.mp ha, hlen]
    exact hlt
  refine ⟨hlink, fun hdecodes => ?_⟩
  have hfits := hdecodes.fits List.mem_cons_self hlink.readable (zeros n h)
    (by simp [classA, ClassFile.allAttributes])
  rw [AttributeInfo.Fits, hlen] at hfits
  omega

/-- For the largest attribute the size of the buffer overflows. -/
theorem not_decodes_classA :
    Linkable (classA [zeros (2 ^ 31 - 1) (by decide)] (by simp)) ∧
      ¬ Decodes [classA [zeros (2 ^ 31 - 1) (by decide)] (by simp)] :=
  not_decodes_zeros (by decide) (by decide) (Nat.le_refl _)

end Llxvm.Jlinker
