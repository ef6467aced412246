import Mathlib.Data.List.Forall2
import Llxvm.Jlinker.LinePass

/-!
# Scanning the libraries

`scan_file` collects the symbols of `.j` files and the classes of `.jar` files in the order of the
command line; `buildMethodMap` and `buildFieldMap` add the symbols of the classes behind them.
-/

namespace Llxvm.Jlinker

open Llxvm.Jreflect TextLines

/-! ## Strings -/

def endsWith (s ending : Line) : Bool := ending.isSuffixOf s

/-- The loop of `string_replace`, behind the part that has been searched; `skip` is how much of
`s` the match covers that has been replaced last. -/
def replaceLoop (search replace : Line) : ℕ → Line → Line
  | _, [] => []
  | skip + 1, _ :: s => replaceLoop search replace skip s
  | 0, c :: s =>
      if startsWith (c :: s) search then replace ++ replaceLoop search replace (search.length - 1) s
      else c :: replaceLoop search replace 0 s

def stringReplace (subject search replace : Line) : Line := replaceLoop search replace 0 subject

theorem startsWith_iff {s t : Line} : startsWith s t ↔ t <+: s := by
  rw [startsWith, beq_iff_eq, eq_comm, List.prefix_iff_eq_take]

theorem length_replaceLoop_le {search replace : Line} (hne : search ≠ [])
    (hlt : replace.length ≤ search.length) (skip : ℕ) (s : Line) :
    (replaceLoop search replace skip s).length ≤ s.length - skip := by
  have hpos := List.length_pos_iff.mpr hne
  induction s generalizing skip with
  | nil => simp [replaceLoop]
  | cons c s ih =>
      cases skip with
      | succ skip =>
          rw [replaceLoop, List.length_cons, Nat.add_sub_add_right]
          exact ih skip
      | zero =>
          rw [replaceLoop, Nat.sub_zero, List.length_cons]
          split_ifs with h
          · have hle := (startsWith_iff.mp h).length_le
            have hrest := ih (search.length - 1)
            rw [List.length_cons] at hle
            rw [List.length_append]
            omega
          · have hrest := ih 0
            rw [List.length_cons]
            omega

theorem length_stringReplace_lt {search replace s : Line}
    (hlt : replace.length < search.length) (h : search <:+: s) :
    (stringReplace s search replace).length < s.length := by
  have hne : search ≠ [] := by
    rintro rfl
    simp at hlt
  induction s with
  | nil => exact absurd (List.infix_nil.mp h) hne
  | cons c s ih =>
      rw [stringReplace, replaceLoop]
      split_ifs with hstart
      · have hle := (startsWith_iff.mp hstart).length_le
        have hrest := length_replaceLoop_le hne hlt.le (search.length - 1) s
        rw [List.length_cons] at hle ⊢
        rw [List.length_append]
        omega
      · have hrest := ih ((List.infix_cons_iff.mp h).resolve_left fun hpre =>
          hstart (startsWith_iff.mpr hpre))
        rw [List.length_cons, List.length_cons]
        exact Nat.succ_lt_succ hrest

theorem stringReplace_of_not_infix {search replace s : Line} (h : ¬ search <:+: s) :
    stringReplace s search replace = s := by
  induction s with
  | nil => rfl
  | cons c s ih =>
      rw [List.infix_cons_iff, not_or] at h
      rw [stringReplace, replaceLoop, if_neg fun hstart => h.1 (startsWith_iff.mp hstart)]
      exact congrArg (c :: ·) (ih h.2)

/-- Replacing something by something shorter leaves only the strings alone that do not have it. -/
theorem stringReplace_eq_iff {search replace s : Line} (hlt : replace.length < search.length) :
    stringReplace s search replace = s ↔ ¬ search <:+: s := by
  refine ⟨fun heq h => ?_, stringReplace_of_not_infix⟩
  have hlen := length_stringReplace_lt hlt h
  rw [heq] at hlen
  exact Nat.lt_irrefl _ hlen

/-- `string_split` at each space; what is behind the last match is left out if it is empty. -/
def stringSplitSpace (s : Line) : List Line :=
  let pieces := s.splitOn ' '
  if pieces.length ≠ 1 ∧ pieces.getLast? = some [] then pieces.dropLast else pieces

/-! ## Files -/

/-- The contents of the files. -/
abbrev FileSystem := Line → Option Line

/-- What the linker looks for while it scans. -/
structure LibState where
  libClasses : OrderedMap String ClassInfo
  methodMap : ClassMap
  fieldMap : ClassMap

def LibState.empty : LibState := ⟨[], [], []⟩

/-- The settings of the linker, and the `.class` entries that are extracted from an archive. -/
structure LinkEnv where
  useKrakatau : Bool
  wideLdc : Bool
  jarEntries : Line → List (StreamReader.Stream Byte (BitVec 32))

/-! ## Jasmin files -/

/-- What is collected from a `.j` file. -/
structure JasminFile where
  className : Line
  methods : List Line
  fields : List Line
  deriving DecidableEq

namespace Word

def classDirective : Line := ".class".toList
def fieldDirective : Line := ".field".toList
def isPublic : Line := "public".toList
def isStatic : Line := "static".toList
def isFinal : Line := "final".toList

end Word

def isModifier (directive item : Line) : Bool :=
  item = directive || item = Word.isPublic || item = Word.isStatic || item = Word.isFinal

/-- The first item that is no modifier, and in the syntax of Krakatau the one two behind it. -/
def methodSignature (useKrakatau : Bool) (items : List Line) : Option Line :=
  match items.dropWhile (isModifier Word.method) with
  | [] => some []
  | item :: rest => if useKrakatau then rest[1]?.map (item ++ ·) else some item

/-- The first item that is no modifier, and the one behind it. -/
def fieldSignature (items : List Line) : Option Line :=
  match items.dropWhile (isModifier Word.fieldDirective) with
  | [] => some []
  | item :: rest => rest[0]?.map (item ++ " ".toList ++ ·)

def isPublicStatic (items : List Line) : Bool :=
  items.contains Word.isPublic && items.contains Word.isStatic

/-- The body of the loop over the lines; `none` is an access behind the end of `items`. -/
def jasminLine (useKrakatau : Bool) (file : JasminFile) (ln : Line) : Option JasminFile := do
  let ln := trimCopy ln
  let items := stringSplitSpace ln
  if startsWith ln Word.classDirective then
    return { file with className := ← items.getLast? }
  else if startsWith ln Word.method then
    if isPublicStatic items then do
      let signature ← methodSignature useKrakatau items
      return if signature = [] then file else { file with methods := file.methods ++ [signature] }
    else return file
  else if startsWith ln Word.fieldDirective then
    if isPublicStatic items then do
      let signature ← fieldSignature items
      return if signature = [] then file else { file with fields := file.fields ++ [signature] }
    else return file
  else return file

def parseJasmin (useKrakatau : Bool) (content : Line) : Option JasminFile :=
  (allLines '\n' content).foldlM (jasminLine useKrakatau) ⟨[], [], []⟩

/-! ## Scanning -/

/-- The loop over the symbols of a `.j` file. -/
def addSymbols (className : Line) (symbols : List Line) (map : ClassMap) : ClassMap :=
  symbols.foldl (fun map s => map.insert (String.ofList s) (String.ofList className)) map

def scanJasmin (env : LinkEnv) (fs : FileSystem) (inputFile outputFile jpath : Line)
    (st : LibState) : Option (Bool × LibState) :=
  if jpath = inputFile ∨ jpath = outputFile then some (true, st)
  else
    match fs jpath with
    | none => some (false, st)
    | some content => do
      let file ← parseJasmin env.useKrakatau content
      if file.className = [] then return (false, st)
      else
        return (true, { st with
          methodMap := addSymbols file.className file.methods st.methodMap
          fieldMap := addSymbols file.className file.fields st.fieldMap })

/-- The key of a class: its name with dots. -/
def binaryName (className : String) : String :=
  String.ofList (stringReplace className.toList "/".toList ".".toList)

/-- The loop of `JarReader::read`; an entry that is refused is left out. -/
def readJar : List (StreamReader.Stream Byte (BitVec 32)) → OrderedMap String ClassInfo →
    Option (OrderedMap String ClassInfo)
  | [], classes => some classes
  | entry :: entries, classes => do
    let (ci, _) ← Jreflect.read entry
    match ci with
    | none => readJar entries classes
    | some ci => do
      let className ← ci.getClassName
      readJar entries (classes.insert (binaryName className) ci)

def scanJar (env : LinkEnv) (fs : FileSystem) (jarpath : Line) (st : LibState) :
    Option (Bool × LibState) :=
  match fs jarpath with
  | none => some (false, st)
  | some content => do
    let classes ← readJar (env.jarEntries content) []
    return (true, { st with
      libClasses := classes.foldl (fun m c => m.insert c.1 c.2) st.libClasses })

def scanFile (env : LinkEnv) (fs : FileSystem) (inputFile outputFile filename : Line)
    (st : LibState) : Option (Bool × LibState) :=
  if endsWith filename ".jar".toList then scanJar env fs filename st
  else if endsWith filename ".j".toList then scanJasmin env fs inputFile outputFile filename st
  else some (false, st)

/-- The loop over the libraries. -/
def scanLibs (env : LinkEnv) (fs : FileSystem) (inputFile outputFile : Line) :
    List Line → LibState → Option (Bool × LibState)
  | [], st => some (true, st)
  | lib :: libs, st => do
    let (found, st) ← scanFile env fs inputFile outputFile lib st
    if found then scanLibs env fs inputFile outputFile libs st else return (false, st)

/-- The maps that are built from what has been scanned. -/
def buildMaps (env : LinkEnv) (st : LibState) : Option LinkMaps := do
  let methodMap ← buildMethodMap (st.libClasses.map Prod.snd) st.methodMap
  let fieldMap ← buildFieldMap (st.libClasses.map Prod.snd) st.fieldMap
  return ⟨methodMap, fieldMap, env.wideLdc⟩

end Llxvm.Jlinker
