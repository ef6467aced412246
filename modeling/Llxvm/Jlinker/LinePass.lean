import Llxvm.Jlinker.LibraryMaps
import Llxvm.Lib.TextLines

/-!
# The line pass of the linker

`readExtern` copies the lines up to the first method and collects the external references that
they declare; `linkStatic` copies the lines behind them and qualifies the references.
-/

namespace Llxvm.Jlinker

open TextLines

/-- A `std::string`. -/
abbrev Line := List Char

/-! ## Strings -/

/-- `std::isspace`, in the locale of C. -/
def isSpace (c : Char) : Bool := c.toNat = 32 || (9 ≤ c.toNat && c.toNat ≤ 13)

def ltrimCopy (s : Line) : Line := s.dropWhile isSpace
def rtrimCopy (s : Line) : Line := (s.reverse.dropWhile isSpace).reverse
def trimCopy (s : Line) : Line := rtrimCopy (ltrimCopy s)

/-- The pieces of `string_split` for the expression `\s+`; the one before the first match may be
empty. -/
def stringSplit (s : Line) : List Line :=
  match s.splitOnP isSpace with
  | [] => []
  | piece :: pieces => piece :: pieces.filter (· ≠ [])

def stringSplit2 (s : Line) (c : Char) : List Line := s.splitOn c

def startsWith (s₁ s₂ : Line) : Bool := s₁.take s₂.length == s₂

/-! ## Reading and writing -/

/-- The `std::ifstream`. -/
structure Input where
  rest : Line
  good : Bool

/-- `std::getline`; the end of the file is met only if there is no newline. -/
def getLine (input : Input) : Line × Input :=
  if input.good then
    match input.rest.dropWhile (· ≠ '\n') with
    | [] => (input.rest, ⟨[], false⟩)
    | _ :: rest => (input.rest.takeWhile (· ≠ '\n'), ⟨rest, true⟩)
  else ([], input)

/-- The line, if the stream is still good behind it. -/
def readLine (input : Input) : Option Line × Input :=
  let (line, input) := getLine input
  (if input.good then some line else none, input)

/-- What the two loops change. -/
structure LinkState where
  out : Line
  externFields : List Line
  externMethods : List Line
  unresolvedInstancesCount : ℕ

def LinkState.initial : LinkState := ⟨[], [], [], 0⟩

def LinkState.outWrite (st : LinkState) (s : Line) : LinkState := { st with out := st.out ++ s }

structure LinkMaps where
  methodMap : ClassMap
  fieldMap : ClassMap
  wideLdc : Bool

def safeGet (map : ClassMap) (key : Line) : Line := ((map.find (String.ofList key)).getD "").toList

/-! ## The two loops -/

namespace Word

def externDirective : Line := ".extern".toList
def method : Line := ".method".toList
def externField : Line := "field".toList
def externMethod : Line := "method".toList
def invokeStatic : Line := "invokestatic".toList
def getStatic : Line := "getstatic".toList
def classForMethod : Line := "CLASSFORMETHOD".toList

theorem externField_ne : externField ≠ externMethod := by decide
theorem invokeStatic_ne_getStatic : invokeStatic ≠ getStatic := by decide
theorem invokeStatic_ne_classForMethod : invokeStatic ≠ classForMethod := by decide
theorem getStatic_ne_classForMethod : getStatic ≠ classForMethod := by decide

end Word

/-- What an `.extern` line declares.  `none` is an access behind the end of `args`. -/
def declareExtern (args : List Line) (st : LinkState) : Option LinkState := do
  let kind ← args[1]?
  if kind = Word.externField then do
    let name ← args[2]?
    let type ← args[3]?
    return { st with externFields := st.externFields ++ [name ++ " ".toList ++ type] }
  else if kind = Word.externMethod then do
    let name ← args[2]?
    return { st with externMethods := st.externMethods ++ [name] }
  else return st

/-- The body of the loop of `readExtern`, and whether the loop goes on. -/
def externLine (line : Line) (st : LinkState) : Option (LinkState × Bool) := do
  let line := trimCopy line
  let args := stringSplit line
  let directive ← args[0]?
  let st ←
    if directive = Word.externDirective then (declareExtern args st).map (·.outWrite ";".toList)
    else some st
  return ((st.outWrite line).outWrite "\n".toList, directive ≠ Word.method)

/-- The class of the first method that has the name of a call without a prototype. -/
def prototype (methodMap : ClassMap) (methodName : Line) : Option (String × String) :=
  if '(' ∈ methodName then none
  else List.find? (fun e => startsWith e.1.toList (methodName ++ "(".toList)) methodMap

def unresolved (st : LinkState) : LinkState :=
  { st with unresolvedInstancesCount := st.unresolvedInstancesCount + 1 }

def printInvokeStatic (maps : LinkMaps) (methodName : Line) (st : LinkState) : LinkState :=
  match prototype maps.methodMap methodName with
  | some (name, _) =>
      ((((st.outWrite "\tinvokestatic ".toList).outWrite
        (safeGet maps.methodMap name.toList)).outWrite "/__non_prototyped__".toList).outWrite
          methodName).outWrite "()V\n".toList
  | none =>
      let className := safeGet maps.methodMap methodName
      if className = [] then unresolved st
      else
        ((((st.outWrite "\tinvokestatic ".toList).outWrite className).outWrite "/".toList).outWrite
          methodName).outWrite "\n".toList

def printGetStatic (maps : LinkMaps) (fieldName : Line) (st : LinkState) : LinkState :=
  let className := safeGet maps.fieldMap fieldName
  if className = [] then unresolved st
  else
    ((((st.outWrite "\tgetstatic ".toList).outWrite className).outWrite "/".toList).outWrite
      fieldName).outWrite "\n".toList

def printClassForMethod (maps : LinkMaps) (methodName : Line) (st : LinkState) : LinkState :=
  let className := safeGet maps.methodMap methodName
  if className = [] then unresolved st
  else
    let st := if maps.wideLdc then st.outWrite "\tldc2_w \"".toList
      else st.outWrite "\tldc \"".toList
    (st.outWrite className).outWrite "\"\n".toList

/-- The body of the loop of `linkStatic`. -/
def linkLine (maps : LinkMaps) (line : Line) (st : LinkState) : Option LinkState := do
  let args := stringSplit2 (trimCopy line) ' '
  let instruction ← args[0]?
  if instruction = Word.invokeStatic then do
    let name ← args[1]?
    if name ∈ st.externMethods then pure (printInvokeStatic maps name st)
    else pure (st.outWrite (line ++ "\n".toList))
  else if instruction = Word.getStatic then do
    let name ← args[1]?
    let type ← args[2]?
    let field := name ++ " ".toList ++ type
    if field ∈ st.externFields then pure (printGetStatic maps field st)
    else pure (st.outWrite (line ++ "\n".toList))
  else if instruction = Word.classForMethod then do
    let name ← args[1]?
    if name ∈ st.externMethods then pure (printClassForMethod maps name st)
    else pure (st.outWrite (line ++ "\n".toList))
  else pure (st.outWrite (line ++ "\n".toList))

theorem readLine_lt {input input' : Input} {line : Line}
    (h : readLine input = (some line, input')) : input'.rest.length < input.rest.length := by
  obtain ⟨rest, good⟩ := input
  unfold readLine getLine at h
  cases good with
  | false => simp at h
  | true =>
      simp only [if_true] at h
      have hle := List.length_dropWhile_le (· ≠ '\n') rest
      cases hdrop : rest.dropWhile (· ≠ '\n') with
      | nil =>
          rw [hdrop] at h
          simp at h
      | cons c rest' =>
          rw [hdrop] at h hle
          simp only [if_true, Prod.mk.injEq] at h
          rw [← h.2]
          exact hle

def readExtern (input : Input) (st : LinkState) : Option (Input × LinkState) :=
  match _hread : readLine input with
  | (none, input') => some (input', st)
  | (some line, input') => do
    let (st, more) ← externLine line st
    if more then readExtern input' st else return (input', st)
termination_by input.rest.length
decreasing_by exact readLine_lt _hread

def linkStatic (maps : LinkMaps) (input : Input) (st : LinkState) : Option (Input × LinkState) :=
  match _hread : readLine input with
  | (none, input') => some (input', st)
  | (some line, input') => do linkStatic maps input' (← linkLine maps line st)
termination_by input.rest.length
decreasing_by exact readLine_lt _hread

section equations

variable {input input' : Input} {line : Line} {st : LinkState}

theorem readExtern_none (h : readLine input = (none, input')) :
    readExtern input st = some (input', st) := by
  rw [readExtern]
  split
  · next hread =>
      rw [h] at hread
      cases hread
      rfl
  · next hread =>
      rw [h] at hread
      cases hread

theorem readExtern_some (h : readLine input = (some line, input')) :
    readExtern input st = (externLine line st).bind fun r =>
      if r.2 then readExtern input' r.1 else some (input', r.1) := by
  rw [readExtern]
  split
  · next hread =>
      rw [h] at hread
      cases hread
  · next hread =>
      rw [h] at hread
      cases hread
      rfl

theorem linkStatic_none {maps : LinkMaps} (h : readLine input = (none, input')) :
    linkStatic maps input st = some (input', st) := by
  rw [linkStatic]
  split
  · next hread =>
      rw [h] at hread
      cases hread
      rfl
  · next hread =>
      rw [h] at hread
      cases hread

theorem linkStatic_some {maps : LinkMaps} (h : readLine input = (some line, input')) :
    linkStatic maps input st = (linkLine maps line st).bind (linkStatic maps input') := by
  rw [linkStatic]
  split
  · next hread =>
      rw [h] at hread
      cases hread
  · next hread =>
      rw [h] at hread
      cases hread
      rfl

end equations

/-- The two loops on a file that has been opened. -/
def linkText (maps : LinkMaps) (text : Line) : Option LinkState := do
  let (input, st) ← readExtern ⟨text, true⟩ .initial
  let (_, st) ← linkStatic maps input st
  return st

/-! ## Directives -/

def isMethod (args : List Line) : Bool := args.head? = some Word.method

def isExtern (args : List Line) : Bool := args.head? = some Word.externDirective

def declaredField : List Line → Option Line
  | d :: kind :: name :: type :: _ =>
      if d = Word.externDirective ∧ kind = Word.externField then some (name ++ " ".toList ++ type)
      else none
  | _ => none

def declaredMethod : List Line → Option Line
  | d :: kind :: name :: _ =>
      if d = Word.externDirective ∧ kind = Word.externMethod then some name else none
  | _ => none

/-- Without the pieces that the kind has. -/
def malformedExtern : List Line → Bool
  | [] => true
  | [d] => d = Word.externDirective
  | d :: kind :: args => d = Word.externDirective &&
      ((kind = Word.externField && args.length < 2) ||
        (kind = Word.externMethod && args.length < 1))

theorem declareExtern_eq (args : List Line) (st : LinkState)
    (hd : args.head? = some Word.externDirective) :
    declareExtern args st = if malformedExtern args then none else some
      { st with
        externFields := st.externFields ++ (declaredField args).toList
        externMethods := st.externMethods ++ (declaredMethod args).toList } := by
  have hne := Word.externField_ne
  have hne' := hne.symm
  unfold declareExtern
  match args with
  | [] => cases hd
  | [d] =>
      cases hd
      simp [malformedExtern]
  | d :: kind :: args =>
      cases hd
      by_cases hfield : kind = Word.externField
      · subst hfield
        rcases args with - | ⟨name, - | ⟨type, args⟩⟩
        · simp [malformedExtern]
        · simp [malformedExtern]
        · simp [malformedExtern, declaredField, declaredMethod, hne]
      · by_cases hmethod : kind = Word.externMethod
        · subst hmethod
          rcases args with - | ⟨name, - | ⟨type, args⟩⟩
          · simp [malformedExtern, hne']
          · simp [malformedExtern, declaredField, declaredMethod, hne']
          · simp [malformedExtern, declaredField, declaredMethod, hne']
        · rcases args with - | ⟨name, - | ⟨type, args⟩⟩
          · simp_all [malformedExtern, declaredField, declaredMethod]
          · simp_all [malformedExtern, declaredField, declaredMethod]
          · simp_all [malformedExtern, declaredField, declaredMethod]

/-- The pieces of a line of the header. -/
def directives (l : Line) : List Line := stringSplit (trimCopy l)

/-- What the header has instead of the line. -/
def headerImage (l : Line) : Line :=
  if isExtern (directives l) then ';' :: trimCopy l else trimCopy l

/-- What one line of the header adds. -/
def LinkState.readDirective (st : LinkState) (l : Line) : LinkState :=
  { st with
    out := st.out ++ (headerImage l ++ ['\n'])
    externFields := st.externFields ++ (declaredField (directives l)).toList
    externMethods := st.externMethods ++ (declaredMethod (directives l)).toList }

theorem externLine_eq (l : Line) (st : LinkState) :
    externLine l st = if malformedExtern (directives l) then none else some
      (st.readDirective l, !isMethod (directives l)) := by
  unfold externLine LinkState.readDirective headerImage
  change (do
    let directive ← (directives l)[0]?
    let st ← if directive = Word.externDirective then
        (declareExtern (directives l) st).map (·.outWrite ";".toList)
      else some st
    return ((st.outWrite (trimCopy l)).outWrite "\n".toList,
      decide (directive ≠ Word.method)) : Option (LinkState × Bool)) = _
  generalize directives l = args
  rcases args with - | ⟨d, args⟩
  · rfl
  · by_cases hd : d = Word.externDirective
    · subst hd
      rw [declareExtern_eq _ _ rfl]
      by_cases hbad : malformedExtern (Word.externDirective :: args) = true
      · simp [hbad]
      · simp [hbad, LinkState.outWrite, isMethod, isExtern]
    · have hgood : malformedExtern (d :: args) = false := by
        rcases args with - | ⟨kind, args⟩ <;> simp [malformedExtern, hd]
      have hfield : declaredField (d :: args) = none := by
        rcases args with - | ⟨kind, - | ⟨name, - | ⟨type, args⟩⟩⟩ <;> simp [declaredField, hd]
      have hmethod : declaredMethod (d :: args) = none := by
        rcases args with - | ⟨kind, - | ⟨name, args⟩⟩ <;> simp [declaredMethod, hd]
      simp [hgood, hfield, hmethod, hd, LinkState.outWrite, isMethod, isExtern]

/-! ## References -/

/-- What the header declares. -/
structure Externs where
  fields : List Line
  methods : List Line

inductive Reference where
  | invokeStatic (method : Line)
  | getStatic (field : Line)
  | classForMethod (method : Line)

/-- A reference with the class that it is qualified with. -/
structure Target where
  before : Line
  className : Line
  after : Line

def Target.line (t : Target) : Line := t.before ++ t.className ++ t.after

/-- The external reference of an instruction, if it has one. -/
def reference (ext : Externs) : List Line → Option Reference
  | instruction :: name :: args =>
      if instruction = Word.invokeStatic then
        if name ∈ ext.methods then some (.invokeStatic name) else none
      else if instruction = Word.getStatic then
        match args with
        | [] => none
        | type :: _ =>
            if name ++ " ".toList ++ type ∈ ext.fields then
              some (.getStatic (name ++ " ".toList ++ type))
            else none
      else if instruction = Word.classForMethod then
        if name ∈ ext.methods then some (.classForMethod name) else none
      else none
  | _ => none

/-- Without the operands that the instruction has. -/
def malformedReference : List Line → Bool
  | [] => true
  | instruction :: args =>
      ((instruction = Word.invokeStatic || instruction = Word.classForMethod) && args.length < 1) ||
        (instruction = Word.getStatic && args.length < 2)

def qualify (className before after : Line) : Option Target :=
  if className = [] then none else some ⟨before, className, after⟩

/-- The class that provides a reference; `none` if it is unresolved. -/
def Reference.resolve (maps : LinkMaps) : Reference → Option Target
  | .invokeStatic m =>
      match prototype maps.methodMap m with
      | some (name, _) => some ⟨"\tinvokestatic ".toList, safeGet maps.methodMap name.toList,
          "/__non_prototyped__".toList ++ m ++ "()V".toList⟩
      | none =>
          qualify (safeGet maps.methodMap m) "\tinvokestatic ".toList ("/".toList ++ m)
  | .getStatic f => qualify (safeGet maps.fieldMap f) "\tgetstatic ".toList ("/".toList ++ f)
  | .classForMethod m => qualify (safeGet maps.methodMap m)
      (if maps.wideLdc then "\tldc2_w \"".toList else "\tldc \"".toList) "\"".toList

def LinkState.externs (st : LinkState) : Externs := ⟨st.externFields, st.externMethods⟩

/-- The reference is written with its class, or counted. -/
def LinkState.link (st : LinkState) : Option Target → LinkState
  | some t => st.outWrite (t.line ++ "\n".toList)
  | none => unresolved st

theorem outWrite_outWrite (st : LinkState) (s s' : Line) :
    (st.outWrite s).outWrite s' = st.outWrite (s ++ s') := by
  simp only [LinkState.outWrite, List.append_assoc]

theorem printInvokeStatic_eq (maps : LinkMaps) (m : Line) (st : LinkState) :
    printInvokeStatic maps m st = st.link ((Reference.invokeStatic m).resolve maps) := by
  unfold printInvokeStatic Reference.resolve qualify
  cases hproto : prototype maps.methodMap m with
  | some e =>
      have hend : "()V\n".toList = "()V".toList ++ "\n".toList := by decide
      simp only [hproto, LinkState.link, Target.line, outWrite_outWrite, List.append_assoc, hend]
  | none =>
      simp only [hproto]
      split_ifs with h
      · rfl
      · simp only [LinkState.link, Target.line, outWrite_outWrite, List.append_assoc]

theorem printGetStatic_eq (maps : LinkMaps) (f : Line) (st : LinkState) :
    printGetStatic maps f st = st.link ((Reference.getStatic f).resolve maps) := by
  unfold printGetStatic Reference.resolve qualify
  simp only
  split_ifs with h
  · rfl
  · simp only [LinkState.link, Target.line, outWrite_outWrite, List.append_assoc]

theorem printClassForMethod_eq (maps : LinkMaps) (m : Line) (st : LinkState) :
    printClassForMethod maps m st = st.link ((Reference.classForMethod m).resolve maps) := by
  have hend : "\"\n".toList = "\"".toList ++ "\n".toList := by decide
  unfold printClassForMethod Reference.resolve qualify
  simp only [hend]
  split_ifs
  · rfl
  · simp only [LinkState.link, Target.line, outWrite_outWrite, List.append_assoc]
  · simp only [LinkState.link, Target.line, outWrite_outWrite, List.append_assoc]

/-- The pieces of an instruction. -/
def operands (l : Line) : List Line := stringSplit2 (trimCopy l) ' '

/-- What one line of the body adds. -/
def LinkState.linkInstruction (maps : LinkMaps) (st : LinkState) (l : Line) : LinkState :=
  match reference st.externs (operands l) with
  | some r => st.link (r.resolve maps)
  | none => st.outWrite (l ++ "\n".toList)

theorem linkLine_eq (maps : LinkMaps) (l : Line) (st : LinkState) :
    linkLine maps l st = if malformedReference (operands l) then none else some
      (st.linkInstruction maps l) := by
  unfold linkLine LinkState.linkInstruction
  simp only [printInvokeStatic_eq, printGetStatic_eq, printClassForMethod_eq]
  change (do
    let instruction ← (operands l)[0]?
    if instruction = Word.invokeStatic then do
      let name ← (operands l)[1]?
      if name ∈ st.externMethods then pure (st.link ((Reference.invokeStatic name).resolve maps))
      else pure (st.outWrite (l ++ "\n".toList))
    else if instruction = Word.getStatic then do
      let name ← (operands l)[1]?
      let type ← (operands l)[2]?
      if name ++ " ".toList ++ type ∈ st.externFields then
        pure (st.link ((Reference.getStatic (name ++ " ".toList ++ type)).resolve maps))
      else pure (st.outWrite (l ++ "\n".toList))
    else if instruction = Word.classForMethod then do
      let name ← (operands l)[1]?
      if name ∈ st.externMethods then pure (st.link ((Reference.classForMethod name).resolve maps))
      else pure (st.outWrite (l ++ "\n".toList))
    else pure (st.outWrite (l ++ "\n".toList)) : Option LinkState) = _
  have hne₁ := Word.invokeStatic_ne_getStatic
  have hne₂ := Word.invokeStatic_ne_classForMethod
  have hne₃ := Word.getStatic_ne_classForMethod
  generalize operands l = args
  rcases args with - | ⟨instruction, args⟩
  · rfl
  · by_cases hinvoke : instruction = Word.invokeStatic
    · subst hinvoke
      rcases args with - | ⟨name, args⟩
      · simp [malformedReference]
      · by_cases hmem : name ∈ st.externMethods
        · simp [malformedReference, reference, LinkState.externs, hne₁, hne₂, hmem]
        · simp [malformedReference, reference, LinkState.externs, hne₁, hne₂, hmem]
    · by_cases hget : instruction = Word.getStatic
      · subst hget
        rcases args with - | ⟨name, - | ⟨type, args⟩⟩
        · simp [malformedReference, hinvoke]
        · simp [malformedReference, hinvoke]
        · by_cases hmem : name ++ " ".toList ++ type ∈ st.externFields
          · simp_all [malformedReference, reference, LinkState.externs]
          · simp_all [malformedReference, reference, LinkState.externs]
      · by_cases hclass : instruction = Word.classForMethod
        · subst hclass
          rcases args with - | ⟨name, args⟩
          · simp [malformedReference, hinvoke, hget]
          · by_cases hmem : name ∈ st.externMethods
            · simp [malformedReference, reference, LinkState.externs, hinvoke, hget, hmem]
            · simp [malformedReference, reference, LinkState.externs, hinvoke, hget, hmem]
        · rcases args with - | ⟨name, args⟩
          · simp [malformedReference, reference, hinvoke, hget, hclass]
          · simp [malformedReference, reference, hinvoke, hget, hclass]

/-! ## Header and body -/

/-- The lines up to the first method. -/
def headerLines : List Line → List Line
  | [] => []
  | l :: ls => if isMethod (directives l) then [l] else l :: headerLines ls

/-- The lines behind the first method line. -/
def bodyLines : List Line → List Line
  | [] => []
  | l :: ls => if isMethod (directives l) then ls else bodyLines ls

theorem headerLines_append_bodyLines (ls : List Line) : headerLines ls ++ bodyLines ls = ls := by
  induction ls with
  | nil => rfl
  | cons l ls ih =>
      unfold headerLines bodyLines
      split_ifs
      · rfl
      · rw [List.cons_append, ih]

/-- The references that the header declares. -/
def declared (header : List Line) : Externs where
  fields := header.filterMap fun l => declaredField (directives l)
  methods := header.filterMap fun l => declaredMethod (directives l)

/-- What the body has instead of the line; nothing for an unresolved reference. -/
def bodyImage (maps : LinkMaps) (ext : Externs) (l : Line) : Option Line :=
  match reference ext (operands l) with
  | some r => (r.resolve maps).map Target.line
  | none => some l

/-! ## Runs -/

section runs

variable {l r : Line} {ls : List Line}

theorem readLine_newline (hl : '\n' ∉ l) (rest : Line) :
    readLine ⟨l ++ '\n' :: rest, true⟩ = (some l, ⟨rest, true⟩) := by
  have hall : ∀ c ∈ l, (decide (c ≠ '\n')) = true :=
    fun c hc => decide_eq_true fun heq : c = '\n' => hl (heq ▸ hc)
  have hdrop : (l ++ '\n' :: rest).dropWhile (· ≠ '\n') = '\n' :: rest := by
    rw [List.dropWhile_append_of_pos hall]
    rfl
  have htake : (l ++ '\n' :: rest).takeWhile (· ≠ '\n') = l := by
    rw [List.takeWhile_append_of_pos hall]
    simp
  simp only [readLine, getLine, if_true, hdrop, htake]

/-- The line without a newline is read, but the stream is not good any more. -/
theorem readLine_end (hr : '\n' ∉ r) : readLine ⟨r, true⟩ = (none, ⟨[], false⟩) := by
  have hdrop : r.dropWhile (· ≠ '\n') = [] := by
    rw [List.dropWhile_eq_nil_iff]
    exact fun c hc => decide_eq_true fun heq : c = '\n' => hr (heq ▸ hc)
  simp only [readLine, getLine, if_true, hdrop, Bool.false_eq_true, if_false]

/-- What `readExtern` has written and collected. -/
def LinkState.readHeader (st : LinkState) (header : List Line) : LinkState :=
  { st with
    out := st.out ++ unlines '\n' (header.map headerImage)
    externFields := st.externFields ++ (declared header).fields
    externMethods := st.externMethods ++ (declared header).methods }

theorem readHeader_readDirective (st : LinkState) (l : Line) (header : List Line) :
    (st.readDirective l).readHeader header = st.readHeader (l :: header) := by
  have hfilter {α β : Type} (f : α → Option β) (a : α) (as : List α) :
      (a :: as).filterMap f = (f a).toList ++ as.filterMap f := by
    rw [List.filterMap_cons]
    cases f a <;> rfl
  simp only [LinkState.readHeader, LinkState.readDirective, declared, hfilter, List.map_cons,
    unlines_cons, List.append_assoc, List.singleton_append]

theorem readExtern_unlines (hls : ∀ l ∈ ls, '\n' ∉ l) (hr : '\n' ∉ r) (st : LinkState) :
    readExtern ⟨unlines '\n' ls ++ r, true⟩ st =
      if (headerLines ls).any fun l => malformedExtern (directives l) then none
      else some
        (if ls.any fun l => isMethod (directives l) then ⟨unlines '\n' (bodyLines ls) ++ r, true⟩
          else ⟨[], false⟩, st.readHeader (headerLines ls)) := by
  induction ls generalizing st with
  | nil =>
      rw [unlines_nil, List.nil_append, readExtern_none (readLine_end hr)]
      simp [headerLines, LinkState.readHeader, declared]
  | cons l ls ih =>
      have hline := readLine_newline (hls l List.mem_cons_self) (unlines '\n' ls ++ r)
      rw [unlines_cons, List.append_assoc, List.cons_append, readExtern_some hline, externLine_eq]
      by_cases hbad : malformedExtern (directives l) = true
      · have hmem : l ∈ headerLines (l :: ls) := by
          unfold headerLines
          split_ifs <;> exact List.mem_cons_self
        rw [if_pos hbad, if_pos (List.any_eq_true.mpr ⟨l, hmem, hbad⟩)]
        rfl
      · rw [if_neg hbad, Option.bind_some]
        by_cases hmethod : isMethod (directives l) = true
        · have hstate : st.readDirective l = st.readHeader [l] := by
            rw [← readHeader_readDirective]
            simp [LinkState.readHeader, declared]
          simp only [headerLines, bodyLines, hmethod, if_true, ← hstate, List.any_cons, hbad,
            Bool.true_or, Bool.not_true, Bool.false_eq_true, if_false, List.any_nil, Bool.or_false]
        · have htail := ih (fun l' hl' => hls l' (List.mem_cons_of_mem l hl')) (st.readDirective l)
          rw [readHeader_readDirective] at htail
          simp only [headerLines, bodyLines, hmethod, Bool.not_false, if_true, List.any_cons, hbad,
            Bool.false_or, Bool.false_eq_true, if_false]
          exact htail

/-- What `linkStatic` has written and counted. -/
def LinkState.linkBody (maps : LinkMaps) (st : LinkState) (body : List Line) : LinkState :=
  { st with
    out := st.out ++ unlines '\n' (body.filterMap (bodyImage maps st.externs))
    unresolvedInstancesCount := st.unresolvedInstancesCount +
      body.countP fun l => (bodyImage maps st.externs l).isNone }

theorem linkBody_linkInstruction (maps : LinkMaps) (st : LinkState) (l : Line)
    (body : List Line) :
    (st.linkInstruction maps l).linkBody maps body = st.linkBody maps (l :: body) := by
  have hexterns : (st.linkInstruction maps l).externs = st.externs := by
    unfold LinkState.linkInstruction
    cases reference st.externs (operands l) with
    | none => rfl
    | some r =>
        simp only
        cases r.resolve maps <;> rfl
  have himage : bodyImage maps st.externs l =
      match reference st.externs (operands l) with
      | some r => (r.resolve maps).map Target.line
      | none => some l := rfl
  rw [LinkState.linkBody, hexterns, LinkState.linkBody, List.filterMap_cons, List.countP_cons,
    himage, LinkState.linkInstruction]
  cases reference st.externs (operands l) with
  | none => simp [LinkState.outWrite]
  | some r =>
      cases htarget : r.resolve maps with
      | none => simp [htarget, LinkState.link, unresolved, Nat.add_assoc, Nat.add_comm]
      | some t => simp [htarget, LinkState.link, LinkState.outWrite]

theorem linkStatic_unlines (maps : LinkMaps) (hls : ∀ l ∈ ls, '\n' ∉ l) (hr : '\n' ∉ r)
    (st : LinkState) :
    linkStatic maps ⟨unlines '\n' ls ++ r, true⟩ st =
      if ls.any fun l => malformedReference (operands l) then none
      else some (⟨[], false⟩, st.linkBody maps ls) := by
  induction ls generalizing st with
  | nil =>
      rw [unlines_nil, List.nil_append, linkStatic_none (readLine_end hr)]
      simp [LinkState.linkBody]
  | cons l ls ih =>
      have hline := readLine_newline (hls l List.mem_cons_self) (unlines '\n' ls ++ r)
      rw [unlines_cons, List.append_assoc, List.cons_append, linkStatic_some hline, linkLine_eq]
      by_cases hbad : malformedReference (operands l) = true
      · simp [hbad]
      · rw [if_neg hbad, Option.bind_some, ih fun l' hl' => hls l' (List.mem_cons_of_mem l hl'),
          linkBody_linkInstruction]
        simp only [List.any_cons, hbad, Bool.false_or]

end runs

/-- What the two loops leave, from the lines that have a newline behind them. -/
def linked (maps : LinkMaps) (ls : List Line) : LinkState :=
  (LinkState.initial.readHeader (headerLines ls)).linkBody maps (bodyLines ls)

/-- A line that makes one of the loops go out of bounds. -/
def Malformed (ls : List Line) : Prop :=
  (∃ l ∈ headerLines ls, malformedExtern (directives l)) ∨
    ∃ l ∈ bodyLines ls, malformedReference (operands l)

theorem bodyLines_eq_nil {ls : List Line} (h : (ls.any fun l => isMethod (directives l)) = false) :
    bodyLines ls = [] := by
  induction ls with
  | nil => rfl
  | cons l ls ih =>
      rw [List.any_cons, Bool.or_eq_false_iff] at h
      rw [bodyLines, h.1, if_neg Bool.false_ne_true, ih h.2]

/-- What is behind the last newline is lost. -/
theorem linkText_eq (maps : LinkMaps) (text : Line) :
    (Malformed (terminated '\n' text) → linkText maps text = none) ∧
      (¬ Malformed (terminated '\n' text) →
        linkText maps text = some (linked maps (terminated '\n' text))) := by
  have hls : ∀ l ∈ terminated '\n' text, '\n' ∉ l := fun l => not_mem_of_mem_terminated
  have hr := @not_mem_remainder Char '\n' _ text
  have htext := @unlines_append_remainder Char '\n' _ text
  generalize terminated '\n' text = ls at *
  generalize remainder '\n' text = r at *
  subst htext
  have hbody : ∀ l ∈ bodyLines ls, '\n' ∉ l := by
    intro l hl
    apply hls l
    rw [← headerLines_append_bodyLines ls]
    exact List.mem_append_right _ hl
  rw [linkText, readExtern_unlines hls hr]
  by_cases hheader : ∃ l ∈ headerLines ls, malformedExtern (directives l)
  · rw [if_pos (List.any_eq_true.mpr hheader)]
    exact ⟨fun _ => rfl, fun hgood => absurd (.inl hheader) hgood⟩
  · rw [if_neg (mt List.any_eq_true.mp hheader)]
    simp only [Option.bind_eq_bind, Option.bind_some]
    cases hmethod : ls.any fun l => isMethod (directives l) with
    | false =>
        have hnil := bodyLines_eq_nil hmethod
        have hstop : linkStatic maps ⟨[], false⟩ (LinkState.initial.readHeader (headerLines ls)) =
            some (⟨[], false⟩, LinkState.initial.readHeader (headerLines ls)) :=
          linkStatic_none rfl
        refine ⟨fun hbad => ?_, fun _ => ?_⟩
        · rcases hbad with hbad | ⟨l, hl, -⟩
          · exact absurd hbad hheader
          · rw [hnil] at hl
            cases hl
        · simp only [Bool.false_eq_true, if_false, hstop, Option.bind_some]
          rw [linked, hnil]
          simp [LinkState.linkBody]
    | true =>
        simp only [if_true, linkStatic_unlines maps hbody hr]
        by_cases hbad : ∃ l ∈ bodyLines ls, malformedReference (operands l)
        · rw [if_pos (List.any_eq_true.mpr hbad)]
          exact ⟨fun _ => rfl, fun hgood => absurd (.inr hbad) hgood⟩
        · rw [if_neg (mt List.any_eq_true.mp hbad)]
          exact ⟨fun hmal => absurd hmal (not_or.mpr ⟨hheader, hbad⟩), fun _ => rfl⟩

end Llxvm.Jlinker
