import Llxvm.Driver.LinkStep
import Llxvm.Jlinker.LibraryOrder
import Llxvm.Jlinker.ResolvedLines

/-!
# Resolution

`performLink` as a whole: it succeeds if the libraries provide all references of its input to
external members, and each of them is qualified with a class that does.
-/

namespace Llxvm.Driver

open Llxvm.Jlinker Llxvm.Jreflect TextLines

/-! ## What the libraries provide -/

/-- The classes that the scan has found are those of class files, and have names. -/
structure LibraryClasses (classes : OrderedMap String ClassInfo) (cs : List ClassFile) : Prop where
  read : classes.map Prod.snd = cs.map ClassFile.read
  wellFormed : ∀ c ∈ cs, c.WellFormed
  named : ∀ c ∈ cs, fileName c ≠ ""

/-- The `.j` files among the libraries, but for the input and the output. -/
def jasminFiles (env : LinkEnv) (fs : FileSystem) (inputFile outputFile : Line)
    (libs : List Line) : List JasminFile :=
  libs.filterMap fun path =>
    if endsWith path ".jar".toList ∨ path = inputFile ∨ path = outputFile then none
    else (fs path).bind (parseJasmin env.useKrakatau)

/-- A class of an archive or of a directory has the public static member, or a file declares it. -/
def ProvidedAs (k : SymbolKind) (cs : List ClassFile) (jasmin : List JasminFile)
    (sig name : String) : Prop :=
  (∃ c ∈ cs, fileName c = name ∧ k.Has c sig) ∨
    ∃ file ∈ jasmin, (Library.jasmin file false).ProvidesAs k sig name

/-- What scanning the libraries has added to the maps. -/
structure ScannedFiles (jasmin : List JasminFile) (st st' : LibState) : Prop where
  methodMap : st'.methodMap =
    (jasmin.map (Library.jasmin · false)).foldl (Library.addTo methodSymbols) st.methodMap
  fieldMap : st'.fieldMap =
    (jasmin.map (Library.jasmin · false)).foldl (Library.addTo fieldSymbols) st.fieldMap
  named : ∀ file ∈ jasmin, file.className ≠ []

section scan

variable {env : LinkEnv} {fs : FileSystem} {inputFile outputFile : Line}

theorem jasminFiles_skipped {path : Line}
    (h : endsWith path ".jar".toList ∨ path = inputFile ∨ path = outputFile) :
    jasminFiles env fs inputFile outputFile [path] = [] := by
  apply List.filterMap_eq_nil_iff.mpr
  intro p hp
  obtain rfl := List.mem_singleton.mp hp
  exact if_pos h

theorem jasminFiles_parsed {path content : Line} {file : JasminFile}
    (h : ¬ (endsWith path ".jar".toList ∨ path = inputFile ∨ path = outputFile))
    (hcontent : fs path = some content) (hfile : parseJasmin env.useKrakatau content = some file) :
    jasminFiles env fs inputFile outputFile [path] = [file] := by
  rw [jasminFiles, List.filterMap_cons_some (b := file), List.filterMap_nil]
  rw [if_neg h, hcontent]
  exact hfile

theorem scanFile_files {path : Line} {st st' : LibState}
    (h : scanFile env fs inputFile outputFile path st = some (true, st')) :
    ScannedFiles (jasminFiles env fs inputFile outputFile [path]) st st' := by
  have hempty : ∀ st₁ : LibState, st₁.methodMap = st.methodMap → st₁.fieldMap = st.fieldMap →
      ScannedFiles [] st st₁ := fun st₁ hm hf => ⟨hm, hf, by simp⟩
  rw [scanFile] at h
  split_ifs at h with hjar hj
  · rw [jasminFiles_skipped (.inl hjar)]
    unfold scanJar at h
    cases hcontent : fs path with
    | none =>
        rw [hcontent] at h
        cases h
    | some content =>
        rw [hcontent] at h
        obtain ⟨classes, -, h⟩ := Option.bind_eq_some_iff.mp h
        cases h
        exact hempty _ rfl rfl
  · unfold scanJasmin at h
    split_ifs at h with hskip
    · rw [jasminFiles_skipped (.inr hskip)]
      cases h
      exact hempty st rfl rfl
    · cases hcontent : fs path with
      | none =>
          rw [hcontent] at h
          cases h
      | some content =>
          rw [hcontent] at h
          obtain ⟨file, hparse, h⟩ := Option.bind_eq_some_iff.mp h
          rw [jasminFiles_parsed (not_or.mpr ⟨hjar, hskip⟩) hcontent hparse]
          split_ifs at h with hname
          · cases h
          · cases h
            exact ⟨rfl, rfl, by simpa using hname⟩
  · cases h

theorem ScannedFiles.append {j₁ j₂ : List JasminFile} {st₁ st₂ st₃ : LibState}
    (h₁ : ScannedFiles j₁ st₁ st₂) (h₂ : ScannedFiles j₂ st₂ st₃) :
    ScannedFiles (j₁ ++ j₂) st₁ st₃ where
  methodMap := by rw [List.map_append, List.foldl_append, ← h₁.methodMap, ← h₂.methodMap]
  fieldMap := by rw [List.map_append, List.foldl_append, ← h₁.fieldMap, ← h₂.fieldMap]
  named := List.forall_mem_append.mpr ⟨h₁.named, h₂.named⟩

theorem scanLibs_files {libs : List Line} {st st' : LibState}
    (h : scanLibs env fs inputFile outputFile libs st = some (true, st')) :
    ScannedFiles (jasminFiles env fs inputFile outputFile libs) st st' := by
  induction libs generalizing st with
  | nil =>
      cases h
      exact ⟨rfl, rfl, by simp [jasminFiles]⟩
  | cons path libs ih =>
      obtain ⟨⟨found, st₁⟩, hfile, hrest⟩ := Option.bind_eq_some_iff.mp h
      cases found with
      | false => cases hrest
      | true =>
          have happ : jasminFiles env fs inputFile outputFile (path :: libs) =
              jasminFiles env fs inputFile outputFile [path] ++
                jasminFiles env fs inputFile outputFile libs :=
            List.filterMap_append (l := [path])
          rw [happ]
          exact (scanFile_files hfile).append (ih hrest)

end scan

/-- The maps have a class for each member that is provided. -/
theorem finds_buildMap {k : SymbolKind} (hk : k.Lawful) {classes : OrderedMap String ClassInfo}
    {cs : List ClassFile} (hcs : LibraryClasses classes cs) {jasmin : List JasminFile}
    (hjasmin : ∀ file ∈ jasmin, file.className ≠ []) :
    ∃ map, buildMap k.kind (classes.map Prod.snd)
        ((jasmin.map (Library.jasmin · false)).foldl (Library.addTo k) []) = some map ∧
      Finds map (ProvidedAs k cs jasmin) := by
  have hclass : ∀ ci ∈ classes.map Prod.snd, ∃ c ∈ cs, c.read = ci := fun ci hci =>
    List.mem_map.mp (hcs.read ▸ hci)
  have hnamed : ∀ ci ∈ classes.map Prod.snd, Named k.kind ci := by
    intro ci hci
    obtain ⟨c, hc, rfl⟩ := hclass ci hci
    exact hk.named (hcs.wellFormed c hc)
  set libs := jasmin.map (Library.jasmin · false) with hlibs
  obtain ⟨map, hrun, hfind⟩ := buildMap_spec hnamed (libs.foldl (Library.addTo k) [])
  -- the files have a signature if one of them adds it
  have hfiles : ∀ sig, (∃ lib ∈ libs, lib.Adds k sig) → ∃ name,
      OrderedMap.find (libs.foldl (Library.addTo k) []) sig = some name ∧
        ∃ file ∈ jasmin, (Library.jasmin file false).ProvidesAs k sig name := by
    intro sig hadds
    obtain ⟨pre, lib, post, heq, hlib, hpost⟩ := exists_last hadds
    obtain ⟨name, hprovides, hname⟩ := @find_foldl_addTo_last k sig pre post lib hlib hpost []
    obtain ⟨file, hfile, rfl⟩ := List.mem_map.mp
      (show lib ∈ jasmin.map (Library.jasmin · false) from hlibs ▸ heq ▸ by simp)
    exact ⟨name, heq ▸ hname, file, hfile, hprovides⟩
  have hsound : ∀ sig name, map.find sig = some name → ProvidedAs k cs jasmin sig name := by
    intro sig name hname
    rcases hfind sig with ⟨ci, hci, hprovides, hv⟩ | ⟨hv, -⟩
    · obtain ⟨c, hc, rfl⟩ := hclass ci hci
      have hwell := hcs.wellFormed c hc
      rw [hname, getClassName_fileName hwell, Option.some.injEq] at hv
      exact .inl ⟨c, hc, hv.symm, (hk.provides hwell sig).mp hprovides⟩
    · rw [hname] at hv
      by_cases hadds : ∃ lib ∈ libs, lib.Adds k sig
      · obtain ⟨name', hname', hprovides⟩ := hfiles sig hadds
        obtain rfl := Option.some.inj (hv.trans hname')
        exact .inr hprovides
      · push Not at hadds
        rw [find_foldl_addTo [] hadds] at hv
        cases hv
  refine ⟨map, hrun, hsound, fun sig hname => ?_, fun sig name hprovided => ?_⟩
  · rcases hsound sig "" hname with ⟨c, hc, hempty, -⟩ | ⟨file, hfile, hempty, -⟩
    · exact hcs.named c hc hempty
    · exact hjasmin file hfile (String.ofList_eq_empty_iff.mp hempty)
  · rcases hfind sig with ⟨ci, hci, -, hv⟩ | ⟨hv, hnot⟩
    · rw [hv]
      exact (hnamed ci hci).1
    · rcases hprovided with ⟨c, hc, -, hhas⟩ | ⟨file, hfile, -, hdeclared⟩
      · refine absurd ⟨c.read, ?_, (hk.provides (hcs.wellFormed c hc) sig).mpr hhas⟩ hnot
        rw [hcs.read]
        exact List.mem_map_of_mem hc
      · have hadds : (Library.jasmin file false).Adds k sig := ⟨rfl, hdeclared⟩
        obtain ⟨name', hname', -⟩ := hfiles sig ⟨_, List.mem_map_of_mem hfile, hadds⟩
        rw [hv, hname']
        rfl

/-! ## The link as a whole -/

/-- What the linker is given. -/
structure Link where
  host : Host
  env : LinkEnv
  recursiveScan : Bool
  inputFile : Line
  outputFile : Line
  libs : List Line
  libDirs : List Line
  files : Files

namespace Link

variable (link : Link)

def perform : Option (Bool × Files) :=
  performLink link.host link.env link.recursiveScan link.inputFile link.outputFile link.libs
    link.libDirs link.files

def scan (libClasses : OrderedMap String ClassInfo) : Option (Bool × LibState) :=
  scanLibs link.env link.files.contents link.inputFile link.outputFile link.libs
    ⟨libClasses, [], []⟩

/-- The libraries are scanned without an error, and `cs` are their classes. -/
structure Scans (st : LibState) (cs : List ClassFile) : Prop where
  scanned : ∃ libClasses,
    link.host.scanDirs link.recursiveScan link.files.contents link.libDirs =
      some (false, libClasses) ∧ link.scan libClasses = some (true, st)
  classes : LibraryClasses st.libClasses cs

/-- What the libraries provide, with `fields` as the fields that count. -/
def providers (fields : SymbolKind) (cs : List ClassFile) : Providers :=
  let files := jasminFiles link.env link.files.contents link.inputFile link.outputFile link.libs
  ⟨ProvidedAs methodSymbols cs files, ProvidedAs fields cs files⟩

/-- Each line of the body is resolved, and the linker succeeds if all references of the body are
provided. -/
def Resolves (fields : SymbolKind) (st : LibState) (text : Line) (cs : List ClassFile) : Prop :=
  let ps := link.providers fields cs
  let ls := terminated '\n' text
  ∃ maps, buildMaps link.env st = some maps ∧
    ∃ written images, linkText maps text = some written ∧
      List.Forall₂ (Jlinker.Resolves ps link.env.wideLdc (declared ls)) (bodyLines ls) images ∧
      written.out = unlines '\n' ((headerLines ls).map headerImage ++ images.reduceOption) ∧
      written.unresolvedInstancesCount = images.countP Option.isNone ∧
      ∃ linked files, link.perform = some (linked, files) ∧
        (link.host.canWrite link.outputFile →
          files.contents link.outputFile = some written.out) ∧
        (linked ↔ ∀ l ∈ bodyLines ls, ∀ r, Refers (declared ls) (directives l) r →
          ∃ className, r.ProvidedBy ps className)

end Link

section perform

variable {link : Link} {text : Line} {st : LibState} {cs : List ClassFile}

/-- The linker reads the input behind the scan, and writes what comes out of its lines. -/
theorem Link.perform_eq (hfile : link.files.contents link.inputFile = some text)
    (hout : link.outputFile ≠ link.inputFile) (hscan : link.Scans st cs) {maps : LinkMaps}
    (hmaps : buildMaps link.env st = some maps) {written : LinkState}
    (hwritten : linkText maps text = some written) :
    link.perform = some (decide (written.unresolvedInstancesCount = 0),
      (link.files.openOut link.host link.outputFile).write link.host link.outputFile
        written.out) := by
  obtain ⟨libClasses, hdirs, hlibs⟩ := hscan.scanned
  have hexists : link.files.fileExists link.inputFile = true := by
    rw [Files.fileExists, hfile]
    rfl
  have hread : (link.files.openOut link.host link.outputFile).contents link.inputFile =
      some text := by
    rw [← hfile]
    exact OnlyTouches.openOut.contents link.inputFile hout.symm
  unfold Link.perform performLink
  unfold Link.scan at hlibs
  rw [hexists]
  simp only [hdirs, hlibs, hmaps, hread, hwritten, Bool.not_true, Bool.false_eq_true, if_false,
    Option.bind_eq_bind, Option.bind_some, Option.getD_some]
  rfl

/-- Both maps find what the libraries provide. -/
theorem Link.Scans.buildMaps (hscan : link.Scans st cs) :
    ∃ maps, Jlinker.buildMaps link.env st = some maps ∧ maps.wideLdc = link.env.wideLdc ∧
      Finds maps.methodMap (link.providers fieldSymbols cs).method ∧
      Finds maps.fieldMap (link.providers fieldSymbols cs).field := by
  obtain ⟨libClasses, -, hlibs⟩ := hscan.scanned
  have hfiles := scanLibs_files hlibs
  obtain ⟨methods, hmethods, hfindm⟩ :=
    finds_buildMap lawful_methodSymbols hscan.classes hfiles.named
  obtain ⟨fields, hfields, hfindf⟩ :=
    finds_buildMap lawful_fieldSymbols hscan.classes hfiles.named
  refine ⟨⟨methods, fields, link.env.wideLdc⟩, ?_, rfl, hfindm, hfindf⟩
  have hm : buildMethodMap (st.libClasses.map Prod.snd) st.methodMap = some methods := by
    rw [hfiles.methodMap]
    exact hmethods
  have hf : buildFieldMap (st.libClasses.map Prod.snd) st.fieldMap = some fields := by
    rw [hfiles.fieldMap]
    exact hfields
  rw [Jlinker.buildMaps, hm, hf]
  rfl

/-- The linker resolves the declared references of a file of the writer, and succeeds exactly when
the libraries provide them all. -/
theorem performLink_resolves (hfile : link.files.contents link.inputFile = some text)
    (htext : PreLink text) (hout : link.outputFile ≠ link.inputFile)
    (hscan : link.Scans st cs) : link.Resolves fieldSymbols st text cs := by
  obtain ⟨maps, hmaps, hwide, hfindm, hfindf⟩ := hscan.buildMaps
  obtain ⟨written, images, hwritten, himages, houtput, hcount⟩ :=
    htext.linkText_resolves hfindm hfindf
  rw [hwide] at himages
  have hrun := Link.perform_eq hfile hout hscan hmaps hwritten
  refine ⟨maps, hmaps, written, images, hwritten, himages, houtput, hcount, _, _, hrun, ?_, ?_⟩
  · intro hwrite
    rw [Files.write, if_pos hwrite]
    exact Function.update_self _ _ _
  · rw [decide_eq_true_iff, hcount]
    exact countP_isNone_eq_zero_iff himages

end perform

section examples

/-- One class in a directory, and the file `B.j` of a class with the method `f()V`. -/
def exampleLink (text : Line) (c : ClassFile) (libs : List Line) : Link where
  host := { allowing with scanDirs := fun _ _ _ => some (false, [(fileName c, c.read)]) }
  env := ⟨false, false, fun _ => []⟩
  recursiveScan := false
  inputFile := "in.plj".toList
  outputFile := "out.j".toList
  libs := libs
  libDirs := ["classes".toList]
  files := ⟨fun path => if path = "in.plj".toList then some text
    else if path = "B.j".toList then some (jasminText "B".toList) else none, []⟩

theorem libraryClasses_singleton {c : ClassFile} (h : c.WellFormed) (hname : fileName c ≠ "") :
    LibraryClasses [(fileName c, c.read)] [c] where
  read := rfl
  wellFormed := by simpa using h
  named := by simpa using hname

theorem scanFile_parsed {env : LinkEnv} {fs : FileSystem} {inputFile outputFile path content : Line}
    {file : JasminFile} {st : LibState} (hj : endsWith path ".j".toList)
    (hskip : ¬ (path = inputFile ∨ path = outputFile)) (hcontent : fs path = some content)
    (hparse : parseJasmin env.useKrakatau content = some file) (hname : file.className ≠ []) :
    scanFile env fs inputFile outputFile path st = some (true, { st with
      methodMap := addSymbols file.className file.methods st.methodMap
      fieldMap := addSymbols file.className file.fields st.fieldMap }) := by
  rw [scanFile, if_neg (not_endsWith_jar hj), if_pos hj, scanJasmin, if_neg hskip, hcontent]
  simp only [hparse, Option.bind_eq_bind, Option.bind_some, if_neg hname]
  rfl

/-- `f()V` is in both libraries, `x J` in one and `g()V` in none, and `h()V` is not declared. -/
def exampleText : Line :=
  unlines '\n' [".class public Main".toList, ".extern method f()V".toList,
    ".extern method g()V".toList, ".extern field x J".toList,
    ".method public static main()V".toList, "\tinvokestatic f()V".toList,
    "\tgetstatic x J".toList, "\tpop2".toList, "\tCLASSFORMETHOD f()V".toList,
    "\tinvokestatic g()V".toList, "\tinvokestatic h()V".toList, "\treturn".toList,
    ".end method".toList]

theorem preLink_exampleText : PreLink exampleText where
  last := by decide +kernel
  declarations := by decide +kernel
  in_header := by decide +kernel
  prototyped := by decide +kernel
  well_spaced := by decide +kernel

theorem performLink_resolves_classL :
    (exampleLink exampleText classL ["B.j".toList]).Resolves fieldSymbols
      ⟨[("L", classL.read)], [("f()V", "B")], []⟩ exampleText [classL] := by
  have hname : fileName classL = "L" := by decide +kernel
  have hparse : parseJasmin false (jasminText "B".toList) =
      some ⟨"B".toList, ["f()V".toList], []⟩ := by decide +kernel
  have hclasses := libraryClasses_singleton linkable_classL.wellFormed (hname ▸ by decide)
  have hfile := @scanFile_parsed (exampleLink exampleText classL ["B.j".toList]).env
    (exampleLink exampleText classL ["B.j".toList]).files.contents "in.plj".toList "out.j".toList
    "B.j".toList (jasminText "B".toList) _ ⟨[(fileName classL, classL.read)], [], []⟩
    (by decide) (by decide) rfl hparse (by decide)
  have hscan : (exampleLink exampleText classL ["B.j".toList]).scan
      [(fileName classL, classL.read)] =
        some (true, ⟨[(fileName classL, classL.read)], [("f()V", "B")], []⟩) :=
    congrArg (Option.bind · _) hfile
  rw [← hname]
  exact performLink_resolves rfl preLink_exampleText (by decide) ⟨⟨_, rfl, hscan⟩, hclasses⟩

/-- The class `E` with its constant `K`. -/
def classE : ClassFile where
  minorVersion := 0#16
  majorVersion := 50#16
  pool := [.classInfo 2#16, .utf8 [69#8] (by decide), .utf8 [75#8] (by decide),
    .utf8 [76#8, 69#8, 59#8] (by decide)]
  flags := 16385#16
  thisClass := 1#16
  superClass := 0#16
  interfaces := []
  fields := [⟨16409#16, 3#16, 4#16, [], length_nil_lt⟩]
  methods := []
  attributes := []
  pool_lt := by decide
  interfaces_lt := length_noInterfaces_lt
  fields_lt := by decide
  methods_lt := length_nil_lt
  attributes_lt := length_nil_lt

theorem wellFormed_classE : classE.WellFormed := by
  refine ⟨rfl, ?_, ?_, by simp [classE, Constant.noZero]⟩
  · intro m hm
    obtain rfl := List.mem_singleton.mp hm
    exact ⟨[75#8], rfl, by simp⟩
  · intro m hm
    obtain rfl := List.mem_singleton.mp hm
    rfl

/-- All public static fields, those of enumerations included. -/
def staticFields : SymbolKind :=
  { fieldSymbols with members := fun c => c.fields.filter fun f => f.isPublic && f.isStatic }

def enumText : Line :=
  unlines '\n' [".class public Main".toList, ".extern field K LE;".toList,
    ".method public static main()V".toList, "\tgetstatic K LE;".toList, "\tpop".toList,
    "\treturn".toList, ".end method".toList]

/-- The constants of an enumeration are public static fields, but the linker does not have them. -/
theorem not_performLink_resolves_classE :
    PreLink enumText ∧
      (exampleLink enumText classE []).files.contents "in.plj".toList = some enumText ∧
      (exampleLink enumText classE []).Scans ⟨[(fileName classE, classE.read)], [], []⟩ [classE] ∧
      ¬ (exampleLink enumText classE []).Resolves staticFields
        ⟨[(fileName classE, classE.read)], [], []⟩ enumText [classE] := by
  have htext : PreLink enumText := ⟨by decide +kernel, by decide +kernel, by decide +kernel,
    by decide +kernel, by decide +kernel⟩
  have hclasses := libraryClasses_singleton wellFormed_classE (by decide +kernel)
  refine ⟨htext, rfl, ⟨⟨_, rfl, rfl⟩, hclasses⟩, ?_⟩
  rintro ⟨maps, hmaps, written, images, hwritten, himages, -, hcount, -⟩
  have hmethods : (declared (terminated '\n' enumText)).methods = [] := by decide +kernel
  have hfields : (declared (terminated '\n' enumText)).fields = ["K LE;".toList] := by
    decide +kernel
  have hall : ∀ l ∈ bodyLines (terminated '\n' enumText), ∀ r,
      Refers (declared (terminated '\n' enumText)) (directives l) r → ∃ className,
        r.ProvidedBy ((exampleLink enumText classE []).providers staticFields [classE])
          className := by
    intro l _ r hr
    generalize directives l = ws at hr
    cases hr with
    | invokeStatic hm =>
        rw [hmethods] at hm
        cases hm
    | classForMethod hm =>
        rw [hmethods] at hm
        cases hm
    | getStatic hf =>
        rw [hfields, List.mem_singleton] at hf
        rw [hf]
        exact ⟨"E", .inl ⟨classE, List.mem_singleton_self _, by decide +kernel, _,
          List.mem_singleton_self _, by decide +kernel⟩⟩
  -- but there is one line less
  have hlinked := (linkText_eq maps enumText).2 htext.not_malformed
  rw [hwritten, Option.some.injEq] at hlinked
  have hone : ((buildMaps (exampleLink enumText classE []).env
      ⟨[(fileName classE, classE.read)], [], []⟩).map fun maps =>
        (linked maps (terminated '\n' enumText)).unresolvedInstancesCount) = some 1 := by
    decide +kernel
  rw [hmaps, Option.map_some, ← hlinked, hcount,
    (countP_isNone_eq_zero_iff himages).mpr hall] at hone
  cases hone

end examples

end Llxvm.Driver
