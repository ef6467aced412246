import Llxvm.Jreflect.Acceptance
import Llxvm.Jlinker.LibraryScan

/-!
# The order of the libraries

Which of several libraries that provide a symbol the maps of the linker have it from, and when
this is the first one of the command line.
-/

namespace Llxvm.Jlinker

open Llxvm.Jreflect TextLines

/-! ## Libraries -/

/-- A library; the input and the output of the linker are skipped as libraries. -/
inductive Library where
  | jar (classes : List ClassFile)
  | jasmin (file : JasminFile) (skipped : Bool)

/-- What is different for methods and fields. -/
structure SymbolKind where
  kind : MemberKind
  members : ClassFile → List MemberInfo
  sep : String
  declared : JasminFile → List Line

def methodSymbols : SymbolKind where
  kind := methodKind
  members := ClassFile.linkableMethods
  sep := ""
  declared := JasminFile.methods

def fieldSymbols : SymbolKind where
  kind := fieldKind
  members := ClassFile.linkableFields
  sep := " "
  declared := JasminFile.fields

/-- The class has a public static member with the signature. -/
def SymbolKind.Has (k : SymbolKind) (c : ClassFile) (sig : String) : Prop :=
  ∃ m ∈ k.members c, c.signature k.sep m = some sig

def hasNoMethodType (c : ClassFile) : Bool := c.pool.all fun k => !k.isMethodType

/-- The name of a class of a library, with slashes. -/
def fileName (c : ClassFile) : String := c.className.getD ""

namespace Library

/-- The binary names of the classes. -/
def names : Library → List String
  | jar classes => classes.map fun c => binaryName (fileName c)
  | jasmin file _ => [binaryName (String.ofList file.className)]

/-- The classes that are read: not those with method types. -/
def classes : Library → List ClassFile
  | jar classes => classes.filter hasNoMethodType
  | jasmin _ _ => []

/-- A class of the library with the given name provides the symbol. -/
def ProvidesAs (k : SymbolKind) (sig name : String) : Library → Prop
  | jar classes => ∃ c ∈ classes, fileName c = name ∧ k.Has c sig
  | jasmin file _ => String.ofList file.className = name ∧
      ∃ s ∈ k.declared file, String.ofList s = sig

def Provides (k : SymbolKind) (sig : String) (lib : Library) : Prop :=
  ∃ name, lib.ProvidesAs k sig name

/-- What the library adds to the classes. -/
def entries (lib : Library) : List (String × ClassInfo) :=
  lib.classes.map fun c => (binaryName (fileName c), c.read)

/-- What the library adds to a map while it is scanned. -/
def addTo (k : SymbolKind) (map : ClassMap) : Library → ClassMap
  | jasmin file false => addSymbols file.className (k.declared file) map
  | _ => map

end Library

/-- The file with this name is the library. -/
def Loads (env : LinkEnv) (fs : FileSystem) (inputFile outputFile path : Line) : Library → Prop
  | .jar classes => endsWith path ".jar".toList ∧ (∀ c ∈ classes, c.WellFormed) ∧
      ∃ content, fs path = some content ∧
        (env.jarEntries content).map StreamReader.Stream.elems = classes.map ClassFile.bytes
  | .jasmin file skipped => endsWith path ".j".toList ∧
      (skipped ↔ path = inputFile ∨ path = outputFile) ∧
      ∃ content, fs path = some content ∧ parseJasmin env.useKrakatau content = some file ∧
        file.className ≠ []

theorem not_endsWith_jar {path : Line} (h : endsWith path ".j".toList) :
    ¬ endsWith path ".jar".toList := by
  rw [endsWith, List.isSuffixOf_iff_suffix] at h ⊢
  intro hjar
  obtain ⟨a, rfl⟩ := h
  obtain ⟨b, hb⟩ := hjar
  have hlast := congrArg List.getLast? hb
  rw [List.getLast?_append, List.getLast?_append,
    show ".jar".toList.getLast? = some 'r' by decide, Option.some_or,
    show ".j".toList.getLast? = some 'j' by decide, Option.some_or] at hlast
  exact absurd hlast (by decide)

/-! ## Symbols of classes -/

/-- What both kinds have in common. -/
structure SymbolKind.Lawful (k : SymbolKind) : Prop where
  named : ∀ {c : ClassFile}, c.WellFormed → Named k.kind c.read
  provides : ∀ {c : ClassFile}, c.WellFormed → ∀ sig,
    Jlinker.Provides k.kind c.read sig ↔ k.Has c sig

theorem lawful_methodSymbols : methodSymbols.Lawful := ⟨named_method, provides_method_iff⟩
theorem lawful_fieldSymbols : fieldSymbols.Lawful := ⟨named_field, provides_field_iff⟩

theorem getClassName_fileName {c : ClassFile} (h : c.WellFormed) :
    c.read.getClassName = some (fileName c) := by
  obtain ⟨name, hname⟩ := Option.isSome_iff_exists.mp h.className
  rw [ClassFile.getClassName_read h, fileName, hname, Option.getD_some]

/-- What comes behind a list of classes is added to their map. -/
theorem buildMap_append (kind : MemberKind) (cis cis' : List ClassInfo) (map : ClassMap) :
    buildMap kind (cis ++ cis') map = (buildMap kind cis map).bind (buildMap kind cis') := by
  induction cis generalizing map with
  | nil => rfl
  | cons ci cis ih =>
      rw [List.cons_append, buildMap, buildMap]
      cases ci.getClassName with
      | none => rfl
      | some name =>
          simp only [Option.bind_eq_bind, Option.bind_some]
          cases addMembers kind ci name (kind.members ci) map with
          | none => rfl
          | some map' => exact ih map'

/-- The last class that provides a signature wins. -/
theorem buildMap_last {kind : MemberKind} {before after : List ClassInfo} {ci : ClassInfo}
    (h : ∀ ci' ∈ before ++ ci :: after, Named kind ci') {map map' : ClassMap}
    (hrun : buildMap kind (before ++ ci :: after) map = some map') {sig : String}
    (hprovides : Provides kind ci sig) (hafter : ∀ ci' ∈ after, ¬ Provides kind ci' sig) :
    map'.find sig = ci.getClassName := by
  rw [show before ++ ci :: after = (before ++ [ci]) ++ after by simp, buildMap_append,
    buildMap_append] at hrun
  have hnamed {l : List ClassInfo} (hl : l ⊆ before ++ ci :: after) : ∀ ci' ∈ l, Named kind ci' :=
    fun ci' hci' => h ci' (hl hci')
  obtain ⟨m₁, hm₁, -⟩ := buildMap_spec (hnamed (List.subset_append_left before _)) map
  obtain ⟨m₂, hm₂, hfind₂⟩ := @buildMap_spec kind [ci] (hnamed (by simp)) m₁
  obtain ⟨m₃, hm₃, hfind₃⟩ := @buildMap_spec kind after
    (hnamed fun a ha => List.mem_append_right _ (List.mem_cons_of_mem ci ha)) m₂
  rw [hm₁, Option.bind_some, hm₂, Option.bind_some, hm₃, Option.some.injEq] at hrun
  subst hrun
  rcases hfind₃ sig with ⟨ci', hci', hprov, -⟩ | ⟨heq, -⟩
  · exact absurd hprov (hafter ci' hci')
  · rw [heq]
    rcases hfind₂ sig with ⟨ci', hci', -, hv⟩ | ⟨-, hnot⟩
    · rw [hv, List.mem_singleton.mp hci']
    · exact absurd ⟨ci, List.mem_singleton_self ci, hprovides⟩ hnot

/-! ## Scanning -/

theorem hasNoMethodType_iff {c : ClassFile} (h : c.WellFormed) :
    hasNoMethodType c = true ↔ c.Readable := by
  rw [hasNoMethodType, List.all_eq_true]
  refine ⟨fun hall => ⟨fun hnil => ?_, by simpa using hall⟩, fun hread => ?_⟩
  · have hname := h.className
    simp [ClassFile.className, hnil, entryAt] at hname
  · simpa using hread.no_methodType

namespace Library

variable {c : ClassFile} {cs : List ClassFile}

theorem classes_cons_readable (h : c.WellFormed) (hread : c.Readable) :
    (jar (c :: cs)).classes = c :: (jar cs).classes :=
  List.filter_cons_of_pos ((hasNoMethodType_iff h).mpr hread)

theorem classes_cons_refused (h : c.WellFormed) (hread : ¬ c.Readable) :
    (jar (c :: cs)).classes = (jar cs).classes :=
  List.filter_cons_of_neg fun hall => hread ((hasNoMethodType_iff h).mp hall)

/-- The attributes of every class that is read fit into the buffer of the reader. -/
def Fits (lib : Library) : Prop := ∀ c ∈ lib.classes, c.Fits

theorem key_mem_names {lib : Library} (h : c ∈ lib.classes) :
    binaryName (fileName c) ∈ lib.names := by
  cases lib with
  | jar classes => exact List.mem_map_of_mem (List.mem_filter.mp h).1
  | jasmin file skipped => cases h

end Library

section readJar

variable {entries : List (StreamReader.Stream Byte (BitVec 32))} {cs : List ClassFile}

theorem readJar_read
    (hentries : entries.map StreamReader.Stream.elems = cs.map ClassFile.bytes)
    (h : ∀ c ∈ cs, c.WellFormed) (hfits : (Library.jar cs).Fits)
    (m : OrderedMap String ClassInfo) :
    readJar entries m =
      some ((Library.jar cs).entries.foldl (fun m e => OrderedMap.insert e.1 e.2 m) m) := by
  induction cs generalizing entries m with
  | nil =>
      obtain rfl := List.map_eq_nil_iff.mp hentries
      rfl
  | cons c cs ih =>
      obtain ⟨hc, hcs⟩ := List.forall_mem_cons.mp h
      obtain ⟨⟨bytes, u⟩, entries, rfl, rfl, hentries'⟩ := List.map_eq_cons_iff.mp hentries
      by_cases hread : c.Readable
      · rw [Library.Fits, Library.classes_cons_readable hc hread] at hfits
        obtain ⟨hfit, hfits⟩ := List.forall_mem_cons.mp hfits
        have hrun := ClassFile.reads_read hread hfit [] u
        rw [List.append_nil] at hrun
        rw [Library.entries, Library.classes_cons_readable hc hread]
        simp only [readJar, hrun, Option.bind_eq_bind, Option.bind_some, getClassName_fileName hc]
        exact ih hentries' hcs hfits _
      · obtain ⟨s, hrun⟩ := (refused_of_not_readable hread).read u
        rw [Library.Fits, Library.classes_cons_refused hc hread] at hfits
        rw [Library.entries, Library.classes_cons_refused hc hread]
        simp only [readJar, hrun, Option.bind_eq_bind, Option.bind_some]
        exact ih hentries' hcs hfits _

theorem readJar_unfit
    (hentries : entries.map StreamReader.Stream.elems = cs.map ClassFile.bytes)
    (h : ∀ c ∈ cs, c.WellFormed) (hfits : ¬ (Library.jar cs).Fits)
    (m : OrderedMap String ClassInfo) : readJar entries m = none := by
  induction cs generalizing entries m with
  | nil => exact absurd (List.forall_mem_nil _) hfits
  | cons c cs ih =>
      obtain ⟨hc, hcs⟩ := List.forall_mem_cons.mp h
      obtain ⟨⟨bytes, u⟩, entries, rfl, rfl, hentries'⟩ := List.map_eq_cons_iff.mp hentries
      by_cases hread : c.Readable
      · rw [Library.Fits, Library.classes_cons_readable hc hread, List.forall_mem_cons] at hfits
        by_cases hfit : c.Fits
        · have hrun := ClassFile.reads_read hread hfit [] u
          rw [List.append_nil] at hrun
          simp only [readJar, hrun, Option.bind_eq_bind, Option.bind_some,
            getClassName_fileName hc]
          exact ih hentries' hcs (fun hrest => hfits ⟨hfit, hrest⟩) _
        · have hrun := ClassFile.fails_read hread hfit [] u
          rw [List.append_nil] at hrun
          simp only [readJar, hrun, Option.bind_eq_bind, Option.bind_none]
      · obtain ⟨s, hrun⟩ := (refused_of_not_readable hread).read u
        rw [Library.Fits, Library.classes_cons_refused hc hread] at hfits
        simp only [readJar, hrun, Option.bind_eq_bind, Option.bind_some]
        exact ih hentries' hcs hfits _

end readJar

/-- What scanning libraries has done. -/
structure Scanned (libs : List Library) (st st' : LibState) : Prop where
  sorted : st.libClasses.Sorted → st'.libClasses.Sorted
  mem_libClasses : ∀ e, e ∈ st'.libClasses ↔ e ∈ libs.flatMap Library.entries ∨ e ∈ st.libClasses
  methodMap : st'.methodMap = libs.foldl (Library.addTo methodSymbols) st.methodMap
  fieldMap : st'.fieldMap = libs.foldl (Library.addTo fieldSymbols) st.fieldMap

theorem Scanned.cons {lib : Library} {libs : List Library} {st st₁ st₂ : LibState}
    (h₁ : Scanned [lib] st st₁) (h₂ : Scanned libs st₁ st₂) : Scanned (lib :: libs) st st₂ where
  sorted := h₂.sorted ∘ h₁.sorted
  mem_libClasses e := by
    rw [h₂.mem_libClasses, h₁.mem_libClasses, List.flatMap_singleton, List.flatMap_cons,
      List.mem_append]
    tauto
  methodMap := by rw [h₂.methodMap, h₁.methodMap, List.foldl_cons, List.foldl_cons, List.foldl_nil]
  fieldMap := by rw [h₂.fieldMap, h₁.fieldMap, List.foldl_cons, List.foldl_cons, List.foldl_nil]

section scan

variable {env : LinkEnv} {fs : FileSystem} {inputFile outputFile path : Line}

theorem scanFile_scanned {lib : Library} (hload : Loads env fs inputFile outputFile path lib)
    (hfits : lib.Fits) (hnames : lib.names.Nodup) {st : LibState}
    (hnew : ∀ e ∈ st.libClasses, e.1 ∉ lib.names) :
    ∃ st', scanFile env fs inputFile outputFile path st = some (true, st') ∧
      Scanned [lib] st st' := by
  cases lib with
  | jar classes =>
      obtain ⟨hjar, hclasses, content, hcontent, hentries⟩ := hload
      have hkeys : ((Library.jar classes).entries.map Prod.fst).Nodup := by
        rw [Library.entries, List.map_map]
        exact hnames.sublist ((List.filter_sublist).map _)
      set m : OrderedMap String ClassInfo :=
        (Library.jar classes).entries.foldl (fun m e => OrderedMap.insert e.1 e.2 m) [] with hm
      have hsorted : m.Sorted := OrderedMap.sorted_foldl_insert OrderedMap.sorted_nil _
      have hmem : ∀ e, e ∈ m ↔ e ∈ (Library.jar classes).entries := fun e => by
        rw [hm, OrderedMap.mem_foldl_insert_iff hkeys (by simp)]
        simp
      refine ⟨⟨m.foldl (fun m c => OrderedMap.insert c.1 c.2 m) st.libClasses, st.methodMap,
        st.fieldMap⟩, ?_, ?_⟩
      · rw [scanFile, if_pos hjar, scanJar, hcontent]
        simp only [readJar_read hentries hclasses hfits, Option.bind_eq_bind, Option.bind_some]
        rfl
      · refine ⟨fun h => OrderedMap.sorted_foldl_insert h _, fun e => ?_, rfl, rfl⟩
        rw [OrderedMap.mem_foldl_insert_iff, hmem]
        · simp
        · exact hsorted.nodup_keys
        · intro e he e' he' heq
          obtain ⟨c, hc, rfl⟩ := List.mem_map.mp ((hmem e').mp he')
          exact hnew e he (heq ▸ Library.key_mem_names hc)
  | jasmin file skipped =>
      obtain ⟨hj, hskip, content, hcontent, hparse, hne⟩ := hload
      rw [scanFile, if_neg (not_endsWith_jar hj), if_pos hj, scanJasmin]
      cases skipped with
      | true =>
          rw [if_pos (hskip.mp rfl)]
          exact ⟨st, rfl, id, by simp [Library.entries, Library.classes], rfl, rfl⟩
      | false =>
          rw [if_neg fun h => absurd (hskip.mpr h) (by decide), hcontent]
          simp only [hparse, Option.bind_eq_bind, Option.bind_some, if_neg hne]
          exact ⟨_, rfl, id, by simp [Library.entries, Library.classes], rfl, rfl⟩

theorem scanFile_unfit {lib : Library} (hload : Loads env fs inputFile outputFile path lib)
    (hfits : ¬ lib.Fits) (st : LibState) :
    scanFile env fs inputFile outputFile path st = none := by
  cases lib with
  | jar classes =>
      obtain ⟨hjar, hclasses, content, hcontent, hentries⟩ := hload
      rw [scanFile, if_pos hjar, scanJar, hcontent]
      simp only [readJar_unfit hentries hclasses hfits, Option.bind_eq_bind, Option.bind_none]
  | jasmin file skipped => exact absurd (List.forall_mem_nil _) hfits

theorem Scanned.new {lib : Library} {libs : List Library} {st st₁ : LibState}
    (h : Scanned [lib] st st₁) (hnames : ((lib :: libs).flatMap Library.names).Nodup)
    (hnew : ∀ e ∈ st.libClasses, e.1 ∉ (lib :: libs).flatMap Library.names) :
    ∀ e ∈ st₁.libClasses, e.1 ∉ libs.flatMap Library.names := by
  intro e he hmem
  rw [List.flatMap_cons, List.nodup_append] at hnames
  rcases (h.mem_libClasses e).mp he with he | he
  · rw [List.flatMap_singleton] at he
    obtain ⟨c, hc, rfl⟩ := List.mem_map.mp he
    exact hnames.2.2 _ (Library.key_mem_names hc) _ hmem rfl
  · exact hnew e he (List.mem_append_right _ hmem)

/-- Libraries with distinct classes are scanned without an error, unless the class reader fails. -/
theorem scanLibs_scanned {paths : List Line} {libs : List Library}
    (hloads : List.Forall₂ (Loads env fs inputFile outputFile) paths libs)
    (hnames : (libs.flatMap Library.names).Nodup) {st : LibState}
    (hnew : ∀ e ∈ st.libClasses, e.1 ∉ libs.flatMap Library.names) :
    ((∀ lib ∈ libs, lib.Fits) → ∃ st',
      scanLibs env fs inputFile outputFile paths st = some (true, st') ∧ Scanned libs st st') ∧
    ((∃ lib ∈ libs, ¬ lib.Fits) → scanLibs env fs inputFile outputFile paths st = none) := by
  induction hloads generalizing st with
  | nil => exact ⟨fun _ => ⟨st, rfl, id, by simp, rfl, rfl⟩, by simp⟩
  | @cons path lib paths libs hload _ ih =>
      by_cases hfits : lib.Fits
      · have hlib := hnames
        rw [List.flatMap_cons, List.nodup_append] at hlib
        obtain ⟨st₁, hrun₁, hscan₁⟩ := scanFile_scanned hload hfits hlib.1 fun e he hmem =>
          hnew e he (List.mem_append_left _ hmem)
        have hrest := @ih hlib.2.1 st₁ (hscan₁.new hnames hnew)
        have hrun : scanLibs env fs inputFile outputFile (path :: paths) st =
            scanLibs env fs inputFile outputFile paths st₁ := by
          rw [scanLibs, hrun₁]
          rfl
        rw [hrun]
        refine ⟨fun hall => ?_, ?_⟩
        · obtain ⟨st₂, hrun₂, hscan₂⟩ := hrest.1 fun l hl => hall l (List.mem_cons_of_mem _ hl)
          exact ⟨st₂, hrun₂, hscan₁.cons hscan₂⟩
        · rintro ⟨l, hl, hunfit⟩
          rcases List.mem_cons.mp hl with rfl | hl
          · exact absurd hfits hunfit
          · exact hrest.2 ⟨l, hl, hunfit⟩
      · refine ⟨fun hall => absurd (hall lib List.mem_cons_self) hfits, fun _ => ?_⟩
        rw [scanLibs, scanFile_unfit hload hfits]
        rfl

end scan

/-! ## The maps -/

/-- The last library that has a property. -/
theorem exists_last {α : Type} {p : α → Prop} {l : List α} (h : ∃ a ∈ l, p a) :
    ∃ pre a post, l = pre ++ a :: post ∧ p a ∧ ∀ b ∈ post, ¬ p b := by
  induction l with
  | nil => simp at h
  | cons a l ih =>
      by_cases hl : ∃ b ∈ l, p b
      · obtain ⟨pre, b, post, rfl, hb, hpost⟩ := ih hl
        exact ⟨a :: pre, b, post, rfl, hb, hpost⟩
      · push Not at hl
        obtain ⟨b, hb, hpb⟩ := h
        rcases List.mem_cons.mp hb with rfl | hb
        · exact ⟨[], b, l, rfl, hpb, hl⟩
        · exact absurd hpb (hl b hb)

/-- The library adds the signature to a map while it is scanned. -/
def Library.Adds (k : SymbolKind) (sig : String) : Library → Prop
  | .jar _ => False
  | .jasmin file skipped => skipped = false ∧ ∃ s ∈ k.declared file, String.ofList s = sig

theorem find_addTo {k : SymbolKind} {sig : String} {lib : Library} (map : ClassMap)
    (h : ¬ lib.Adds k sig) : (lib.addTo k map).find sig = map.find sig := by
  cases lib with
  | jar classes => rfl
  | jasmin file skipped =>
      cases skipped with
      | true => rfl
      | false =>
          have hnot : sig ∉ (k.declared file).map String.ofList := by
            intro hmem
            obtain ⟨s, hs, hsig⟩ := List.mem_map.mp hmem
            exact h ⟨rfl, s, hs, hsig⟩
          have hfind := OrderedMap.find_foldl_insert_const ((k.declared file).map String.ofList)
            (String.ofList file.className) map sig
          rw [List.foldl_map, if_neg hnot] at hfind
          exact hfind

theorem find_foldl_addTo {k : SymbolKind} {sig : String} {libs : List Library} (map : ClassMap)
    (h : ∀ lib ∈ libs, ¬ lib.Adds k sig) :
    OrderedMap.find (libs.foldl (Library.addTo k) map) sig = map.find sig := by
  induction libs generalizing map with
  | nil => rfl
  | cons lib libs ih =>
      obtain ⟨hlib, hlibs⟩ := List.forall_mem_cons.mp h
      rw [List.foldl_cons, ih _ hlibs, find_addTo map hlib]

/-- The last file that adds a signature wins. -/
theorem find_foldl_addTo_last {k : SymbolKind} {sig : String} {pre post : List Library}
    {lib : Library} (hlib : lib.Adds k sig) (hpost : ∀ l ∈ post, ¬ l.Adds k sig)
    (map : ClassMap) : ∃ name, lib.ProvidesAs k sig name ∧
      OrderedMap.find ((pre ++ lib :: post).foldl (Library.addTo k) map) sig = some name := by
  cases lib with
  | jar classes => exact hlib.elim
  | jasmin file skipped =>
      obtain ⟨rfl, s, hs, hsig⟩ := hlib
      refine ⟨String.ofList file.className, ⟨rfl, s, hs, hsig⟩, ?_⟩
      rw [List.foldl_append, List.foldl_cons, find_foldl_addTo _ hpost]
      have hfind := OrderedMap.find_foldl_insert_const ((k.declared file).map String.ofList)
        (String.ofList file.className) (pre.foldl (Library.addTo k) map) sig
      rw [List.foldl_map, if_pos (hsig ▸ List.mem_map_of_mem hs)] at hfind
      exact hfind

/-- The greatest class of an archive wins over all files. -/
structure FromClass (k : SymbolKind) (libs : List Library) (sig : String) (c : ClassFile) :
    Prop where
  mem : ∃ lib ∈ libs, c ∈ lib.classes
  has : k.Has c sig
  greatest : ∀ lib ∈ libs, ∀ c' ∈ lib.classes, k.Has c' sig →
    binaryName (fileName c') ≤ binaryName (fileName c)

/-- What a signature is mapped to. -/
theorem find_buildMap {k : SymbolKind} (hk : k.Lawful) {libs : List Library}
    (hlink : ∀ lib ∈ libs, ∀ c ∈ lib.classes, c.WellFormed)
    {classes : OrderedMap String ClassInfo} (hsorted : classes.Sorted)
    (hmem : ∀ e, e ∈ classes ↔ e ∈ libs.flatMap Library.entries) (map : ClassMap) :
    ∃ map', buildMap k.kind (classes.map Prod.snd) map = some map' ∧ ∀ sig,
      (∃ c, FromClass k libs sig c ∧ map'.find sig = some (fileName c)) ∨
      (∀ lib ∈ libs, ∀ c ∈ lib.classes, ¬ k.Has c sig) ∧ map'.find sig = map.find sig := by
  have hentry : ∀ e, e ∈ classes ↔ ∃ lib ∈ libs, ∃ c ∈ lib.classes,
      (binaryName (fileName c), c.read) = e := by
    intro e
    simp only [hmem, List.mem_flatMap, Library.entries, List.mem_map]
  have hnamed : ∀ ci ∈ classes.map Prod.snd, Named k.kind ci := by
    intro ci hci
    obtain ⟨e, he, rfl⟩ := List.mem_map.mp hci
    obtain ⟨lib, hlib, c, hc, rfl⟩ := (hentry e).mp he
    exact hk.named (hlink lib hlib c hc)
  obtain ⟨map', hrun, hfind⟩ := buildMap_spec hnamed map
  refine ⟨map', hrun, fun sig => ?_⟩
  by_cases hprov : ∃ e ∈ classes, Jlinker.Provides k.kind e.2 sig
  · obtain ⟨pre, e, post, rfl, hhas, hpost⟩ := exists_last hprov
    obtain ⟨lib, hlib, c, hc, rfl⟩ := (hentry e).mp (by simp)
    have hhas' := (hk.provides (hlink lib hlib c hc) sig).mp hhas
    refine .inl ⟨c, ⟨⟨lib, hlib, hc⟩, hhas', fun lib' hlib' c' hc' hsig => ?_⟩, ?_⟩
    · have he' := (hentry _).mpr ⟨lib', hlib', c', hc', rfl⟩
      have hle := hsorted.key_le he' fun hafter =>
        hpost _ hafter ((hk.provides (hlink lib' hlib' c' hc') sig).mpr hsig)
      exact hle
    · rw [List.map_append, List.map_cons] at hrun hnamed
      rw [buildMap_last hnamed hrun hhas, getClassName_fileName (hlink lib hlib c hc)]
      intro ci hci
      obtain ⟨e, he, rfl⟩ := List.mem_map.mp hci
      exact hpost e he
  · refine .inr ⟨fun lib hlib c hc hsig => hprov ?_, ?_⟩
    · exact ⟨_, (hentry _).mpr ⟨lib, hlib, c, hc, rfl⟩,
        (hk.provides (hlink lib hlib c hc) sig).mpr hsig⟩
    · rcases hfind sig with ⟨ci, hci, hsig, -⟩ | ⟨heq, -⟩
      · obtain ⟨e, he, rfl⟩ := List.mem_map.mp hci
        exact absurd ⟨e, he, hsig⟩ hprov
      · exact heq

/-! ## The order of the command line -/

/-- A signature that several libraries provide is mapped to a class of the first of them. -/
def FollowsOrder (k : SymbolKind) (libs : List Library) (map : ClassMap) : Prop :=
  ∀ pre lib post sig, libs = pre ++ lib :: post → (∀ l ∈ pre, ¬ l.Provides k sig) →
    lib.Provides k sig → (∃ l ∈ post, l.Provides k sig) →
      ∃ name, map.find sig = some name ∧ lib.ProvidesAs k sig name

/-- The maps of the linker follow the order of the libraries. -/
def ResolvesInOrder (env : LinkEnv) (fs : FileSystem) (inputFile outputFile : Line)
    (paths : List Line) (libs : List Library) : Prop :=
  ∃ st maps, scanLibs env fs inputFile outputFile paths .empty = some (true, st) ∧
    buildMaps env st = some maps ∧ FollowsOrder methodSymbols libs maps.methodMap ∧
      FollowsOrder fieldSymbols libs maps.fieldMap

/-- The later libraries have nothing that replaces the symbol: of an archive a class that is
greater than all theirs, of a file one that is not skipped in front of skipped ones. -/
def Library.Wins (k : SymbolKind) (sig : String) (post : List Library) : Library → Prop
  | .jar classes => ∃ c ∈ (jar classes).classes, k.Has c sig ∧
      ∀ lib ∈ post, ∀ c' ∈ lib.classes, k.Has c' sig →
        binaryName (fileName c') < binaryName (fileName c)
  | .jasmin _ skipped => skipped = false ∧
      ∀ lib ∈ post, ¬ lib.Adds k sig ∧ ∀ c ∈ lib.classes, ¬ k.Has c sig

def FirstWins (k : SymbolKind) (libs : List Library) : Prop :=
  ∀ pre lib post sig, libs = pre ++ lib :: post → (∀ l ∈ pre, ¬ l.Provides k sig) →
    lib.Provides k sig → (∃ l ∈ post, l.Provides k sig) → lib.Wins k sig post

theorem Library.name_mem {lib : Library} {k : SymbolKind} {sig name : String}
    (h : lib.ProvidesAs k sig name) : binaryName name ∈ lib.names := by
  cases lib with
  | jar classes =>
      obtain ⟨c, hc, rfl, -⟩ := h
      exact List.mem_map_of_mem hc
  | jasmin file skipped =>
      obtain ⟨rfl, -⟩ := h
      exact List.mem_singleton_self _

theorem Library.providesAs_of_mem {lib : Library} {k : SymbolKind} {sig : String} {c : ClassFile}
    (hc : c ∈ lib.classes) (h : k.Has c sig) : lib.ProvidesAs k sig (fileName c) := by
  cases lib with
  | jar classes => exact ⟨c, (List.mem_filter.mp hc).1, rfl, h⟩
  | jasmin file skipped => cases hc

theorem Library.Adds.provides {k : SymbolKind} {sig : String} {lib : Library}
    (h : lib.Adds k sig) : lib.Provides k sig := by
  cases lib with
  | jar classes => exact h.elim
  | jasmin file skipped => exact ⟨_, rfl, h.2⟩

section order

variable {k : SymbolKind} {pre post : List Library} {lib : Library} {sig : String}

/-- No class of a later library has the same name. -/
theorem name_ne_later (hnames : ((pre ++ lib :: post).flatMap Library.names).Nodup)
    {lib' : Library} (hlib' : lib' ∈ post) {n n' : String} (hn : n ∈ lib.names)
    (hn' : n' ∈ lib'.names) : n ≠ n' := by
  rw [List.flatMap_append, List.flatMap_cons, List.nodup_append, List.nodup_append] at hnames
  exact hnames.2.1.2.2 n hn n' (List.mem_flatMap.mpr ⟨lib', hlib', hn'⟩)

theorem not_providesAs_later (hnames : ((pre ++ lib :: post).flatMap Library.names).Nodup)
    {name : String} (h : lib.ProvidesAs k sig name) {lib' : Library} (hlib' : lib' ∈ post) :
    ¬ lib'.ProvidesAs k sig name :=
  fun h' => name_ne_later hnames hlib' (Library.name_mem h) (Library.name_mem h') rfl

/-- The symbol is taken from a class of an archive. -/
theorem providesAs_class_iff (hnames : ((pre ++ lib :: post).flatMap Library.names).Nodup)
    (hpre : ∀ l ∈ pre, ¬ l.Provides k sig) {c : ClassFile}
    (hc : FromClass k (pre ++ lib :: post) sig c) :
    lib.ProvidesAs k sig (fileName c) ↔ lib.Wins k sig post := by
  obtain ⟨⟨libc, hlibc, hmem⟩, hhas, hgreatest⟩ := hc
  have hclass := Library.providesAs_of_mem hmem hhas
  have hwhere : libc = lib ∨ libc ∈ post := by
    rcases List.mem_append.mp hlibc with h | h
    · exact absurd ⟨_, hclass⟩ (hpre libc h)
    · exact List.mem_cons.mp h
  constructor
  · intro h
    rcases hwhere with rfl | hpost
    · cases libc with
      | jar classes =>
          refine ⟨c, hmem, hhas, fun lib' hlib' c' hc' hhas' => ?_⟩
          refine lt_of_le_of_ne (hgreatest lib' (by simp [hlib']) c' hc' hhas') (Ne.symm ?_)
          exact name_ne_later hnames hlib' (Library.key_mem_names hmem) (Library.key_mem_names hc')
      | jasmin file skipped => cases hmem
    · exact absurd hclass (not_providesAs_later hnames h hpost)
  · intro hwins
    rcases hwhere with rfl | hpost
    · exact hclass
    · cases lib with
      | jar classes =>
          obtain ⟨c₀, hc₀, hhas₀, hlt⟩ := hwins
          have hle := hgreatest (.jar classes) (by simp) c₀ hc₀ hhas₀
          exact absurd (hlt libc hpost c hmem hhas) (not_lt_of_ge hle)
      | jasmin file skipped => exact absurd hhas ((hwins.2 libc hpost).2 c hmem)

/-- No class of an archive has the symbol. -/
theorem providesAs_file_iff (hnames : ((pre ++ lib :: post).flatMap Library.names).Nodup)
    (hpre : ∀ l ∈ pre, ¬ l.Provides k sig) (hlib : lib.Provides k sig)
    (hno : ∀ l ∈ pre ++ lib :: post, ∀ c ∈ l.classes, ¬ k.Has c sig) :
    (∃ name, OrderedMap.find ((pre ++ lib :: post).foldl (Library.addTo k) []) sig = some name ∧
      lib.ProvidesAs k sig name) ↔ lib.Wins k sig post := by
  constructor
  · rintro ⟨name, hfind, hprov⟩
    have hpost : ∀ l ∈ post, ¬ l.Adds k sig := by
      -- The last file of the later ones would win.
      intro l hl hadds
      obtain ⟨a, l', b, rfl, hadds', hb⟩ := exists_last ⟨l, hl, hadds⟩
      obtain ⟨name', hprov', hfind'⟩ := @find_foldl_addTo_last k sig (pre ++ lib :: a) b l'
        hadds' hb []
      rw [← List.cons_append, ← List.append_assoc, hfind', Option.some.injEq] at hfind
      subst hfind
      exact not_providesAs_later hnames hprov (by simp) hprov'
    by_cases hadds : lib.Adds k sig
    · cases lib with
      | jar classes => exact hadds.elim
      | jasmin file skipped => exact ⟨hadds.1, fun l hl => ⟨hpost l hl, hno l (by simp [hl])⟩⟩
    · rw [find_foldl_addTo [] fun l hl => ?_] at hfind
      · cases hfind
      · rcases List.mem_append.mp hl with h | h
        · exact fun hl' => hpre l h hl'.provides
        · rcases List.mem_cons.mp h with rfl | h
          · exact hadds
          · exact hpost l h
  · intro hwins
    cases lib with
    | jar classes =>
        obtain ⟨c, hc, hhas, -⟩ := hwins
        exact absurd hhas (hno (.jar classes) (by simp) c hc)
    | jasmin file skipped =>
        obtain ⟨_, -, hdeclared⟩ := hlib
        obtain ⟨name, hprov, hfind⟩ := @find_foldl_addTo_last k sig pre post (.jasmin file skipped)
          ⟨hwins.1, hdeclared⟩ (fun l hl => (hwins.2 l hl).1) []
        exact ⟨name, hfind, hprov⟩

end order

theorem followsOrder_iff {k : SymbolKind} {libs : List Library}
    (hnames : (libs.flatMap Library.names).Nodup) {map : ClassMap}
    (hfind : ∀ sig, (∃ c, FromClass k libs sig c ∧ map.find sig = some (fileName c)) ∨
      (∀ lib ∈ libs, ∀ c ∈ lib.classes, ¬ k.Has c sig) ∧
        map.find sig = OrderedMap.find (libs.foldl (Library.addTo k) []) sig) :
    FollowsOrder k libs map ↔ FirstWins k libs := by
  have hiff : ∀ pre lib post sig, libs = pre ++ lib :: post → (∀ l ∈ pre, ¬ l.Provides k sig) →
      lib.Provides k sig →
        ((∃ name, map.find sig = some name ∧ lib.ProvidesAs k sig name) ↔
          lib.Wins k sig post) := by
    rintro pre lib post sig rfl hpre hlib
    rcases hfind sig with ⟨c, hc, hv⟩ | ⟨hno, hv⟩
    · rw [← providesAs_class_iff hnames hpre hc, hv]
      simp
    · rw [← providesAs_file_iff hnames hpre hlib hno, hv]
  constructor
  · intro h pre lib post sig hlibs hpre hlib hpost
    exact (hiff pre lib post sig hlibs hpre hlib).mp (h pre lib post sig hlibs hpre hlib hpost)
  · intro h pre lib post sig hlibs hpre hlib hpost
    exact (hiff pre lib post sig hlibs hpre hlib).mpr (h pre lib post sig hlibs hpre hlib hpost)

theorem wellFormed_of_loads {env : LinkEnv} {fs : FileSystem} {inputFile outputFile : Line}
    {paths : List Line} {libs : List Library}
    (h : List.Forall₂ (Loads env fs inputFile outputFile) paths libs) :
    ∀ lib ∈ libs, ∀ c ∈ lib.classes, c.WellFormed := by
  induction h with
  | nil => simp
  | @cons path lib paths libs hload _ ih =>
      refine List.forall_mem_cons.mpr ⟨fun c hc => ?_, ih⟩
      cases lib with
      | jar classes => exact hload.2.1 c (List.mem_filter.mp hc).1
      | jasmin file skipped => cases hc

/-- The linker takes each symbol from the first library that provides it exactly when the reader
survives the classes and no later library has a class or a file that wins. -/
theorem resolvesInOrder_iff {env : LinkEnv} {fs : FileSystem} {inputFile outputFile : Line}
    {paths : List Line} {libs : List Library}
    (hloads : List.Forall₂ (Loads env fs inputFile outputFile) paths libs)
    (hnames : (libs.flatMap Library.names).Nodup) :
    ResolvesInOrder env fs inputFile outputFile paths libs ↔
      (∀ lib ∈ libs, lib.Fits) ∧ FirstWins methodSymbols libs ∧ FirstWins fieldSymbols libs := by
  have hclasses := wellFormed_of_loads hloads
  obtain ⟨hfit, hunfit⟩ := @scanLibs_scanned env fs inputFile outputFile paths libs hloads hnames
    .empty (by simp [LibState.empty])
  by_cases hfits : ∀ lib ∈ libs, lib.Fits
  swap
  · push Not at hfits
    obtain ⟨lib, hlib, hlib'⟩ := hfits
    refine iff_of_false ?_ fun h => hlib' (h.1 lib hlib)
    rintro ⟨st, maps, hscan, -⟩
    rw [hunfit ⟨lib, hlib, hlib'⟩] at hscan
    cases hscan
  obtain ⟨st, hscan, hst⟩ := hfit hfits
  have hsorted := hst.sorted OrderedMap.sorted_nil
  have hmem : ∀ e, e ∈ st.libClasses ↔ e ∈ libs.flatMap Library.entries := by
    intro e
    rw [hst.mem_libClasses]
    simp [LibState.empty]
  obtain ⟨methods, hmethods, hfindm⟩ :=
    find_buildMap lawful_methodSymbols hclasses hsorted hmem st.methodMap
  obtain ⟨fields, hfields, hfindf⟩ :=
    find_buildMap lawful_fieldSymbols hclasses hsorted hmem st.fieldMap
  rw [hst.methodMap] at hfindm
  rw [hst.fieldMap] at hfindf
  have hbuild : buildMaps env st = some ⟨methods, fields, env.wideLdc⟩ := by
    rw [buildMaps, buildMethodMap, show methodKind = methodSymbols.kind from rfl, hmethods,
      buildFieldMap, show fieldKind = fieldSymbols.kind from rfl]
    simp only [hfields, Option.bind_eq_bind, Option.bind_some]
    rfl
  rw [← followsOrder_iff hnames hfindm, ← followsOrder_iff hnames hfindf, and_iff_right hfits]
  constructor
  · rintro ⟨st', maps, hscan', hbuild', hfollows⟩
    cases hscan.symm.trans hscan'
    cases hbuild.symm.trans hbuild'
    exact hfollows
  · intro hfollows
    exact ⟨st, _, hscan, hbuild, hfollows⟩

section examples

/-- A file of the class `name`, with a public static method. -/
def jasminText (name : Line) : Line :=
  ".class public ".toList ++ name ++ "\n.method public static f()V\n".toList

def jasminLibrary (name : Line) : Library := .jasmin ⟨name, ["f()V".toList], []⟩ false

/-- An archive of one class, and two files. -/
def libraryFiles : FileSystem := fun path =>
  if path = "a.jar".toList then some []
  else if path = "A.j".toList then some (jasminText "A".toList)
  else if path = "B.j".toList then some (jasminText "B".toList)
  else none

def libraryEnv : LinkEnv where
  useKrakatau := false
  wideLdc := false
  jarEntries _ := [⟨(classA [] length_nil_lt).bytes, fun _ => 0#32⟩]

theorem loads_jar :
    Loads libraryEnv libraryFiles "in.plj".toList "out.j".toList "a.jar".toList
      (.jar [classA [] (by decide)]) :=
  ⟨by decide, by simpa using (linkable_classA (by decide) (by simp)).wellFormed, [], rfl, rfl⟩

theorem loads_a :
    Loads libraryEnv libraryFiles "in.plj".toList "out.j".toList "A.j".toList
      (jasminLibrary "A".toList) :=
  ⟨by decide, by decide, jasminText "A".toList, by decide, by decide +kernel, by decide⟩

theorem loads_b :
    Loads libraryEnv libraryFiles "in.plj".toList "out.j".toList "B.j".toList
      (jasminLibrary "B".toList) :=
  ⟨by decide, by decide, jasminText "B".toList, by decide, by decide +kernel, by decide⟩

theorem firstWins_pair {k : SymbolKind} {a b : Library}
    (h : ∀ sig, a.Provides k sig → b.Provides k sig → a.Wins k sig [b]) : FirstWins k [a, b] := by
  rintro pre lib post sig hlibs - hlib ⟨l, hl, hl'⟩
  rcases pre with - | ⟨p, - | ⟨p', pre⟩⟩
  · cases hlibs
    rw [List.mem_singleton] at hl
    subst hl
    exact h sig hlib hl'
  · cases hlibs
    cases hl
  · simp at hlibs

/-- The class of an archive comes before that of a file. -/
theorem resolvesInOrder_jar :
    ResolvesInOrder libraryEnv libraryFiles "in.plj".toList "out.j".toList
      ["a.jar".toList, "B.j".toList] [.jar [classA [] (by decide)], jasminLibrary "B".toList] := by
  refine (resolvesInOrder_iff (.cons loads_jar (.cons loads_b .nil)) (by decide +kernel)).mpr
    ⟨?_, firstWins_pair ?_, firstWins_pair ?_⟩
  · rintro lib hlib c hc
    rcases List.mem_cons.mp hlib with rfl | hlib
    · obtain rfl := List.mem_singleton.mp (List.mem_filter.mp hc).1
      simp [ClassFile.Fits, classA, ClassFile.allAttributes]
    · obtain rfl := List.mem_singleton.mp hlib
      cases hc
  · rintro sig ⟨_, c, hc, -, hhas⟩ -
    refine ⟨c, List.mem_filter.mpr ⟨hc, ?_⟩, hhas, fun lib hlib c' hc' => ?_⟩
    · obtain rfl := List.mem_singleton.mp hc
      decide
    · obtain rfl := List.mem_singleton.mp hlib
      cases hc'
  · rintro sig - ⟨_, -, s, hs, -⟩
    cases hs

/-- Of two files the last one replaces what the first one provides. -/
theorem not_resolvesInOrder_files :
    List.Forall₂ (Loads libraryEnv libraryFiles "in.plj".toList "out.j".toList)
        ["A.j".toList, "B.j".toList] [jasminLibrary "A".toList, jasminLibrary "B".toList] ∧
      ([jasminLibrary "A".toList, jasminLibrary "B".toList].flatMap Library.names).Nodup ∧
      ¬ ResolvesInOrder libraryEnv libraryFiles "in.plj".toList "out.j".toList
        ["A.j".toList, "B.j".toList] [jasminLibrary "A".toList, jasminLibrary "B".toList] := by
  refine ⟨.cons loads_a (.cons loads_b .nil), by decide +kernel, ?_⟩
  rintro ⟨st, maps, hscan, hbuild, hfollows, -⟩
  have hprovides : ∀ name, (jasminLibrary name).Provides methodSymbols "f()V" := fun name =>
    ⟨_, rfl, "f()V".toList, List.mem_singleton_self _, rfl⟩
  obtain ⟨name, hname, rfl, -⟩ := hfollows [] (jasminLibrary "A".toList)
    [jasminLibrary "B".toList] "f()V" rfl (by simp) (hprovides _)
    ⟨jasminLibrary "B".toList, List.mem_singleton_self _, hprovides _⟩
  have hrun : ((scanLibs libraryEnv libraryFiles "in.plj".toList "out.j".toList
      ["A.j".toList, "B.j".toList] .empty).bind fun r =>
        (buildMaps libraryEnv r.2).bind fun maps => maps.methodMap.find "f()V") = some "B" := by
    decide +kernel
  rw [hscan, Option.bind_some, hbuild, Option.bind_some, hname] at hrun
  revert hrun
  decide

end examples

end Llxvm.Jlinker
