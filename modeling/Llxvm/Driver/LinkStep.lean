import Mathlib.Logic.Function.Basic
import Llxvm.Jlinker.LibraryScan

/-!
# The link step

`performLink`, `linkAsm` and the steps of `main`: which files a command line that only links
writes and removes.
-/

namespace Llxvm.Driver

open Llxvm.Jlinker Llxvm.Jreflect

/-! ## Files -/

/-- The files, and the paths that have been opened for writing or removed. -/
structure Files where
  contents : FileSystem
  touched : List Line

/-- What is not decided by the driver: the entries of an archive, the classes and `is_error` of
`scan_dir`, and the permissions of the files. -/
structure Host where
  jarEntries : Line → List (StreamReader.Stream Byte (BitVec 32))
  scanDirs : Bool → FileSystem → List Line → Option (Bool × OrderedMap String ClassInfo)
  canWrite : Line → Bool
  canRemove : Line → Bool

namespace Files

def fileExists (files : Files) (path : Line) : Bool := (files.contents path).isSome

/-- Open an `std::ofstream`. -/
def openOut (host : Host) (path : Line) (files : Files) : Files where
  contents := if host.canWrite path then Function.update files.contents path (some [])
    else files.contents
  touched := files.touched ++ [path]

/-- Write to the stream that has been opened. -/
def write (host : Host) (path text : Line) (files : Files) : Files :=
  { files with contents := if host.canWrite path then
      Function.update files.contents path (some text) else files.contents }

def remove (host : Host) (path : Line) (files : Files) : Files where
  contents := if host.canRemove path then Function.update files.contents path none
    else files.contents
  touched := files.touched ++ [path]

end Files

/-! ## The linker -/

namespace Word

def jasminSuffix : Line := ".j".toList
def jasminPrelinkSuffix : Line := ".plj".toList

end Word

/-- `none` is undefined behaviour. -/
def performLink (host : Host) (env : LinkEnv) (recursiveScan : Bool) (inputFile outputFile : Line)
    (libs libDirs : List Line) (files : Files) : Option (Bool × Files) :=
  if !files.fileExists inputFile then some (false, files)
  else do
    let (isError, libClasses) ← host.scanDirs recursiveScan files.contents libDirs
    if isError then return (false, files)
    else do
      let (found, st) ← scanLibs env files.contents inputFile outputFile libs ⟨libClasses, [], []⟩
      if !found then return (false, files)
      else do
        let maps ← buildMaps env st
        -- the output is truncated before the first line of the input is read
        let files := files.openOut host outputFile
        let st ← linkText maps ((files.contents inputFile).getD [])
        return (st.unresolvedInstancesCount = 0, files.write host outputFile st.out)

/-! ## The driver -/

structure GenerationOpts where
  inputFiles : List Line
  outputFiles : List Line
  tempFiles : List Line
  libs : List Line
  libDirs : List Line
  performingAllSteps : Bool
  classname : Line
  linkRecursiveScan : Bool
  jvmUseKrakatau : Bool
  jvmWideLdc : Bool

/-- Whether a step has failed. -/
abbrev Step := GenerationOpts → Files → Option (Bool × GenerationOpts × Files)

def linkAsm (host : Host) : Step := fun opts files =>
  match opts.inputFiles with
  | [jPrelinkOutfile] =>
      if !endsWith jPrelinkOutfile Word.jasminSuffix &&
          !endsWith jPrelinkOutfile Word.jasminPrelinkSuffix then some (true, opts, files)
      else do
        let jOutfile := opts.outputFiles.head?.getD
          (stringReplace jPrelinkOutfile Word.jasminPrelinkSuffix Word.jasminSuffix)
        let env : LinkEnv := ⟨opts.jvmUseKrakatau, opts.jvmWideLdc, host.jarEntries⟩
        let (linked, files) ← performLink host env opts.linkRecursiveScan jPrelinkOutfile jOutfile
          opts.libs opts.libDirs files
        if linked then
          return (false, { opts with
            outputFiles := opts.outputFiles ++ [jOutfile]
            tempFiles := if opts.performingAllSteps then opts.tempFiles ++ [jOutfile]
              else opts.tempFiles }, files)
        else
          return (true, opts,
            if files.fileExists jPrelinkOutfile then files.remove host jOutfile else files)
  | _ => some (true, opts, files)

/-- The options. -/
structure CommandLine where
  compileOnly : Bool
  mergeBcOnly : Bool
  genasmOnly : Bool
  asmlinkOnly : Bool
  buildobjOnly : Bool
  classname : Option Line
  keep : Bool
  dryRun : Bool
  linkRecursiveScan : Bool
  jvmUseKrakatau : Bool
  jvmWideLdc : Bool
  outfile : Option Line
  libs : List Line
  libDirs : List Line
  nonOptionArgs : List Line

namespace CommandLine

def performAllSteps (cmd : CommandLine) : Bool :=
  !cmd.compileOnly && !cmd.mergeBcOnly && !cmd.genasmOnly && !cmd.asmlinkOnly && !cmd.buildobjOnly

def exclusiveOpts (cmd : CommandLine) : ℕ :=
  [cmd.compileOnly, cmd.mergeBcOnly, cmd.genasmOnly, cmd.asmlinkOnly, cmd.buildobjOnly].count true

end CommandLine

/-- `main` returns, or an exception that nothing catches ends the program. -/
inductive Ending where
  | returned (code : ℤ)
  | aborted

/-- Where `main` is between two steps. -/
inductive Progress where
  | ended (ending : Ending) (files : Files)
  | next (opts : GenerationOpts) (files : Files)

def Progress.andThen (f : GenerationOpts → Files → Option Progress) : Progress → Option Progress
  | ended ending files => some (ended ending files)
  | next opts files => f opts files

/-- `PERFORM_OPT_STEP` -/
def performOptStep (performAllSteps : Bool) (step : Step) (isSet : Bool) (opts : GenerationOpts)
    (files : Files) : Option Progress := do
  let (failed, opts, files) ←
    if performAllSteps || isSet then do
      let (failed, opts, files) ← step { opts with outputFiles := [] } files
      pure (failed, { opts with inputFiles := opts.outputFiles }, files)
    else pure (false, opts, files)
  if failed || isSet then return .ended (.returned (if failed then 1 else 0)) files
  else return .next opts files

/-- The settings between the steps. -/
def applyOptions (cmd : CommandLine) (opts : GenerationOpts) (files : Files) : Option Progress :=
  let inputFiles := if opts.outputFiles ≠ [] then opts.outputFiles else opts.inputFiles
  match cmd.classname with
  -- `opt_classname->value()` throws `std::out_of_range`
  | none => some (.ended .aborted files)
  | some classname =>
      if cmd.outfile.isSome ∧ 1 < inputFiles.length then some (.ended (.returned (-1)) files)
      else some (.next { opts with
        inputFiles := inputFiles
        outputFiles := cmd.outfile.toList
        libs := opts.libs ++ cmd.libs
        libDirs := opts.libDirs ++ cmd.libDirs
        performingAllSteps := cmd.performAllSteps
        classname := classname
        linkRecursiveScan := cmd.linkRecursiveScan
        jvmUseKrakatau := cmd.jvmUseKrakatau
        jvmWideLdc := cmd.jvmWideLdc } files)

/-- The steps that do not link. -/
structure OtherSteps where
  doCompile : Step
  doMergeBc : Step
  generateAsm : Step
  buildObject : Step

/-- The end of `main`. -/
def removeTempFiles (host : Host) (cmd : CommandLine) (opts : GenerationOpts) (files : Files) :
    Files :=
  if cmd.keep || cmd.dryRun then files
  else opts.tempFiles.foldl (fun files f => files.remove host f) files

/-- The rest of `main` behind the checks of the other options, for the JVM. -/
def runSteps (host : Host) (steps : OtherSteps) (cmd : CommandLine) (files : Files) :
    Option (Ending × Files) :=
  let all := cmd.performAllSteps
  if (cmd.genasmOnly || all) && cmd.classname.isNone then some (.returned (-1), files)
  else if !all && decide (1 < cmd.exclusiveOpts) then some (.returned (-1), files)
  else do
    let opts : GenerationOpts :=
      ⟨cmd.nonOptionArgs, [], [], [], [], false, [], false, false, false⟩
    let p ← performOptStep all steps.doCompile cmd.compileOnly opts files
    let p ← p.andThen (performOptStep all steps.doMergeBc cmd.mergeBcOnly)
    let p ← p.andThen (applyOptions cmd)
    let p ← p.andThen (performOptStep all steps.generateAsm cmd.genasmOnly)
    let p ← p.andThen (performOptStep all (linkAsm host) cmd.asmlinkOnly)
    let p ← p.andThen (performOptStep all steps.buildObject cmd.buildobjOnly)
    match p with
    | .ended ending files => return (ending, files)
    | .next opts files => return (.returned 0, removeTempFiles host cmd opts files)

/-! ## What the linker touches -/

/-- Only the file `path` is opened for writing or removed, and only it changes. -/
structure OnlyTouches (path : Line) (files files' : Files) : Prop where
  touched : ∀ p ∈ files'.touched, p ∈ files.touched ∨ p = path
  contents : ∀ p, p ≠ path → files'.contents p = files.contents p

namespace OnlyTouches

variable {path : Line} {files files' files'' : Files} {host : Host}

theorem refl (path : Line) (files : Files) : OnlyTouches path files files :=
  ⟨fun _ => .inl, fun _ _ => rfl⟩

theorem trans (h : OnlyTouches path files files') (h' : OnlyTouches path files' files'') :
    OnlyTouches path files files'' where
  touched p hp := (h'.touched p hp).elim (h.touched p) .inr
  contents p hp := (h'.contents p hp).trans (h.contents p hp)

theorem update {c : Bool} {v : Option Line} (f : FileSystem) {p : Line} (hp : p ≠ path) :
    (if c then Function.update f path v else f) p = f p := by
  cases c with
  | false => rfl
  | true => exact Function.update_of_ne hp v f

theorem openOut : OnlyTouches path files (files.openOut host path) where
  touched _ hp := (List.mem_append.mp hp).imp_right List.mem_singleton.mp
  contents _ := update files.contents

theorem write {text : Line} : OnlyTouches path files (files.write host path text) where
  touched _ := .inl
  contents _ := update files.contents

theorem remove : OnlyTouches path files (files.remove host path) where
  touched _ hp := (List.mem_append.mp hp).imp_right List.mem_singleton.mp
  contents _ := update files.contents

end OnlyTouches

theorem isSome_update {c : Bool} {path p text : Line} {f : FileSystem} (h : (f p).isSome) :
    ((if c then Function.update f path (some text) else f) p).isSome := by
  cases c with
  | false => exact h
  | true =>
      by_cases hp : p = path
      · rw [if_pos rfl, hp, Function.update_self]
        rfl
      · rw [if_pos rfl, Function.update_of_ne hp]
        exact h

section linker

variable {host : Host} {env : LinkEnv} {recursiveScan : Bool} {inputFile outputFile : Line}
  {libs libDirs : List Line} {files files' : Files}

theorem performLink_missing (h : files.fileExists inputFile = false) :
    performLink host env recursiveScan inputFile outputFile libs libDirs files =
      some (false, files) := by
  rw [performLink, h]
  rfl

/-- The linker opens the output before it succeeds, and touches nothing else. -/
theorem performLink_touches {linked : Bool}
    (h : performLink host env recursiveScan inputFile outputFile libs libDirs files =
      some (linked, files')) :
    OnlyTouches outputFile files files' ∧ (linked → outputFile ∈ files'.touched) ∧
      ∀ p, files.fileExists p → files'.fileExists p := by
  have hsame {b : Bool} {fs : Files} (heq : some (false, files) = some (b, fs)) :
      OnlyTouches outputFile files fs ∧ (b → outputFile ∈ fs.touched) ∧
        ∀ p, files.fileExists p → fs.fileExists p := by
    cases heq
    exact ⟨.refl outputFile files, nofun, fun _ => id⟩
  unfold performLink at h
  split_ifs at h
  · exact hsame h
  obtain ⟨⟨isError, libClasses⟩, -, h⟩ := Option.bind_eq_some_iff.mp h
  cases isError with
  | true => exact hsame h
  | false =>
      obtain ⟨⟨found, st⟩, -, h⟩ := Option.bind_eq_some_iff.mp h
      cases found with
      | false => exact hsame h
      | true =>
          obtain ⟨maps, -, h⟩ := Option.bind_eq_some_iff.mp h
          obtain ⟨st, -, h⟩ := Option.bind_eq_some_iff.mp h
          cases h
          refine ⟨OnlyTouches.openOut.trans .write, fun _ => ?_, fun p hp => ?_⟩
          · exact List.mem_append_right _ (List.mem_singleton_self _)
          · exact isSome_update (isSome_update hp)

end linker

/-- Without an output file the step touches the input with its suffix replaced. -/
theorem linkAsm_touches {host : Host} {opts opts' : GenerationOpts} {files files' : Files}
    {input : Line} {failed : Bool} (hinput : opts.inputFiles = [input])
    (haccepted : endsWith input Word.jasminSuffix ∨ endsWith input Word.jasminPrelinkSuffix)
    (hout : opts.outputFiles = []) (h : linkAsm host opts files = some (failed, opts', files')) :
    let output := stringReplace input Word.jasminPrelinkSuffix Word.jasminSuffix
    (files.fileExists input = false ∧ files' = files) ∨
      (files.fileExists input ∧ output ∈ files'.touched ∧ OnlyTouches output files files') := by
  intro output
  unfold linkAsm at h
  simp only [hinput, hout, List.head?_nil, Option.getD_none] at h
  rw [if_neg (by rcases haccepted with h | h <;> simp [h])] at h
  obtain ⟨⟨linked, files₁⟩, hlink, h⟩ := Option.bind_eq_some_iff.mp h
  cases hexists : files.fileExists input with
  | false =>
      rw [performLink_missing hexists, Option.some.injEq, Prod.mk.injEq] at hlink
      obtain ⟨rfl, rfl⟩ := hlink
      simp only [hexists] at h
      cases h
      exact .inl ⟨rfl, rfl⟩
  | true =>
      obtain ⟨honly, hopened, hkeeps⟩ := performLink_touches hlink
      refine .inr ⟨rfl, ?_⟩
      cases linked with
      | true =>
          cases h
          exact ⟨hopened rfl, honly⟩
      | false =>
          simp only [hkeeps input hexists] at h
          cases h
          exact ⟨List.mem_append_right _ (List.mem_singleton_self _), honly.trans .remove⟩

/-! ## The command line -/

/-- Only the link step is asked for. -/
structure LinkOnly (cmd : CommandLine) (input : Line) : Prop where
  asmlinkOnly : cmd.asmlinkOnly = true
  compileOnly : cmd.compileOnly = false
  mergeBcOnly : cmd.mergeBcOnly = false
  genasmOnly : cmd.genasmOnly = false
  buildobjOnly : cmd.buildobjOnly = false
  inputs : cmd.nonOptionArgs = [input]
  accepted : endsWith input Word.jasminSuffix ∨ endsWith input Word.jasminPrelinkSuffix

/-- A step that is asked for is the last one, and starts without output files. -/
theorem performOptStep_set (step : Step) (opts : GenerationOpts) (files : Files) :
    performOptStep false step true opts files =
      (step { opts with outputFiles := [] } files).map fun r =>
        .ended (.returned (if r.1 then 1 else 0)) r.2.2 := by
  rw [performOptStep, Bool.or_true, if_pos rfl]
  cases step { opts with outputFiles := [] } files with
  | none => rfl
  | some r =>
      obtain ⟨failed, opts', files'⟩ := r
      cases failed <;> rfl

/-- What the link step gets: no output files, whatever the options say. -/
def linkOptions (cmd : CommandLine) (classname : Line) : GenerationOpts where
  inputFiles := cmd.nonOptionArgs
  outputFiles := []
  tempFiles := []
  libs := cmd.libs
  libDirs := cmd.libDirs
  performingAllSteps := cmd.performAllSteps
  classname := classname
  linkRecursiveScan := cmd.linkRecursiveScan
  jvmUseKrakatau := cmd.jvmUseKrakatau
  jvmWideLdc := cmd.jvmWideLdc

/-- Without a class name the program ends before the step, and otherwise it ends with the step. -/
theorem runSteps_linkOnly (host : Host) (steps : OtherSteps) {cmd : CommandLine} {input : Line}
    (hcmd : LinkOnly cmd input) (files : Files) :
    runSteps host steps cmd files = match cmd.classname with
      | none => some (.aborted, files)
      | some classname => (linkAsm host (linkOptions cmd classname) files).map fun r =>
          (.returned (if r.1 then 1 else 0), r.2.2) := by
  have hall : cmd.performAllSteps = false := by simp [CommandLine.performAllSteps, hcmd.asmlinkOnly]
  have hone : cmd.exclusiveOpts = 1 := by
    simp [CommandLine.exclusiveOpts, hcmd.asmlinkOnly, hcmd.compileOnly, hcmd.mergeBcOnly,
      hcmd.genasmOnly, hcmd.buildobjOnly]
  have hskipped : ∀ (step : Step) opts,
      performOptStep false step false opts files = some (.next opts files) := fun _ _ => rfl
  have hopts : applyOptions cmd
      ⟨cmd.nonOptionArgs, [], [], [], [], false, [], false, false, false⟩ files =
        some (match cmd.classname with
          | none => .ended .aborted files
          | some classname => .next { linkOptions cmd classname with
              outputFiles := cmd.outfile.toList } files) := by
    unfold applyOptions
    cases cmd.classname with
    | none => rfl
    | some classname => exact if_neg (by simp [hcmd.inputs])
  rw [runSteps, hall, hone, hcmd.asmlinkOnly, hcmd.compileOnly, hcmd.mergeBcOnly,
    hcmd.genasmOnly, hcmd.buildobjOnly]
  simp only [hskipped, Progress.andThen, hopts, Option.bind_eq_bind, Option.bind_some]
  cases cmd.classname with
  | none => rfl
  | some classname =>
      simp only [performOptStep_set]
      change (Option.map _ (linkAsm host (linkOptions cmd classname) files)).bind _ = _
      cases linkAsm host (linkOptions cmd classname) files <;> rfl

/-- The step touches the output file if there is one, and else not the input; so the input stays
what it was. -/
def Honours (outfile : Option Line) (input : Line) (contents : FileSystem) (files : Files) : Prop :=
  (∀ path ∈ files.touched, match outfile with
    | some x => path = x
    | none => path ≠ input) ∧ files.contents input = contents input

/-- There is no class name, or no input, or `-o` has the name that is used without it, or the name
of the input has the suffix that is replaced. -/
def Spared (cmd : CommandLine) (input : Line) (contents : FileSystem) : Prop :=
  cmd.classname = none ∨ contents input = none ∨ match cmd.outfile with
    | some x => x = stringReplace input Word.jasminPrelinkSuffix Word.jasminSuffix
    | none => Word.jasminPrelinkSuffix <:+: input

theorem honours_iff_spared {host : Host} {steps : OtherSteps} {cmd : CommandLine} {input : Line}
    (hcmd : LinkOnly cmd input) (hne : ∀ x, cmd.outfile = some x → x ≠ input)
    {contents : FileSystem} {ending : Ending} {files : Files}
    (hrun : runSteps host steps cmd ⟨contents, []⟩ = some (ending, files)) :
    Honours cmd.outfile input contents files ↔ Spared cmd input contents := by
  rw [runSteps_linkOnly host steps hcmd] at hrun
  cases hname : cmd.classname with
  | none =>
      rw [hname] at hrun
      cases hrun
      exact iff_of_true ⟨by simp, rfl⟩ (.inl hname)
  | some classname =>
      rw [hname] at hrun
      obtain ⟨⟨failed, opts', files'⟩, hlink, hfiles⟩ := Option.map_eq_some_iff.mp hrun
      cases hfiles
      have hclass : cmd.classname ≠ none := by simp [hname]
      rcases linkAsm_touches hcmd.inputs hcmd.accepted rfl hlink with
        ⟨hmissing, rfl⟩ | ⟨hthere, hmem, honly⟩
      · have hnone : contents input = none := Option.not_isSome_iff_eq_none.mp (by
          rw [show (contents input).isSome = false from hmissing]
          decide)
        exact iff_of_true ⟨by simp, rfl⟩ (.inr (.inl hnone))
      · have hsome : contents input ≠ none := Option.isSome_iff_ne_none.mp hthere
        have htouched : ∀ path ∈ files'.touched,
            path = stringReplace input Word.jasminPrelinkSuffix Word.jasminSuffix :=
          fun path hpath => (honly.touched path hpath).resolve_left (by simp)
        have hreplace : stringReplace input Word.jasminPrelinkSuffix Word.jasminSuffix = input ↔
            ¬ Word.jasminPrelinkSuffix <:+: input := stringReplace_eq_iff (by decide)
        unfold Honours Spared
        rw [or_iff_right hclass, or_iff_right hsome]
        cases houtfile : cmd.outfile with
        | some x =>
            constructor
            · intro h
              exact (h.1 _ hmem).symm
            · intro hx
              refine ⟨fun path hpath => (htouched path hpath).trans hx.symm, ?_⟩
              exact honly.contents input fun heq => hne x houtfile (hx.trans heq.symm)
        | none =>
            have hiff : Word.jasminPrelinkSuffix <:+: input ↔
                stringReplace input Word.jasminPrelinkSuffix Word.jasminSuffix ≠ input := by
              rw [ne_eq, hreplace, not_not]
            simp only [hiff]
            constructor
            · intro h
              exact h.1 _ hmem
            · intro hneq
              refine ⟨fun path hpath => htouched path hpath ▸ hneq, ?_⟩
              exact honly.contents input hneq.symm

section examples

/-- `-C foo -a`, and perhaps `-o` -/
def linkCommand (input : Line) (outfile : Option Line) : CommandLine where
  compileOnly := false
  mergeBcOnly := false
  genasmOnly := false
  asmlinkOnly := true
  buildobjOnly := false
  classname := some "foo".toList
  keep := false
  dryRun := false
  linkRecursiveScan := false
  jvmUseKrakatau := false
  jvmWideLdc := false
  outfile := outfile
  libs := []
  libDirs := []
  nonOptionArgs := [input]

/-- All files may be written and removed. -/
def allowing : Host := ⟨fun _ => [], fun _ _ _ => some (false, []), fun _ => true, fun _ => true⟩

def noSteps : OtherSteps where
  doCompile opts files := some (false, opts, files)
  doMergeBc opts files := some (false, opts, files)
  generateAsm opts files := some (false, opts, files)
  buildObject opts files := some (false, opts, files)

def onlyFile (path text : Line) : FileSystem := fun p => if p = path then some text else none

theorem linkOnly_linkCommand {input : Line} (outfile : Option Line)
    (h : endsWith input Word.jasminSuffix ∨ endsWith input Word.jasminPrelinkSuffix) :
    LinkOnly (linkCommand input outfile) input := ⟨rfl, rfl, rfl, rfl, rfl, rfl, h⟩

theorem linkText_nil (maps : LinkMaps) : linkText maps [] = some .initial := by
  have hread (good : Bool) : readLine ⟨[], good⟩ = (none, ⟨[], false⟩) := by cases good <;> rfl
  have hstatic : linkStatic maps ⟨[], false⟩ .initial = some (⟨[], false⟩, .initial) :=
    linkStatic_none (hread false)
  simp only [linkText, readExtern_none (hread true), hstatic, Option.bind_eq_bind, Option.bind_some]
  rfl

/-- Without libraries the linker succeeds if it finds the input empty. -/
theorem performLink_onlyFile {env : LinkEnv} {input output text : Line}
    (hempty : text = [] ∨ output = input) :
    ∃ files, performLink allowing env false input output [] [] ⟨onlyFile input text, []⟩ =
      some (true, files) := by
  have hread : ((Files.openOut allowing output ⟨onlyFile input text, []⟩).contents input).getD [] =
      [] := by
    change (Function.update (onlyFile input text) output (some []) input).getD [] = []
    by_cases hout : input = output
    · rw [hout, Function.update_self]
      rfl
    · obtain rfl := hempty.resolve_right (Ne.symm hout)
      rw [Function.update_of_ne hout, onlyFile, if_pos rfl]
      rfl
  have hexists : (Files.mk (onlyFile input text) []).fileExists input = true := by
    simp [Files.fileExists, onlyFile]
  have hscan : allowing.scanDirs false (onlyFile input text) [] = some (false, []) := rfl
  rw [performLink, hexists, if_neg (by simp)]
  simp only [hscan, scanLibs, Option.bind_eq_bind, Option.bind_some]
  have hmaps : buildMaps env ⟨[], [], []⟩ = some ⟨[], [], env.wideLdc⟩ := rfl
  simp only [Bool.false_eq_true, if_false, Bool.not_true, hmaps, Option.bind_some, hread,
    linkText_nil]
  exact ⟨_, rfl⟩

theorem runSteps_linkCommand {input text : Line} (outfile : Option Line)
    (haccepted : endsWith input Word.jasminSuffix ∨ endsWith input Word.jasminPrelinkSuffix)
    (hempty : text = [] ∨ stringReplace input Word.jasminPrelinkSuffix Word.jasminSuffix = input) :
    ∃ files, runSteps allowing noSteps (linkCommand input outfile) ⟨onlyFile input text, []⟩ =
      some (.returned 0, files) := by
  have hcond : ¬ (!endsWith input Word.jasminSuffix &&
      !endsWith input Word.jasminPrelinkSuffix) = true := by
    rcases haccepted with h | h <;> simp [h]
  obtain ⟨files, hlink⟩ := @performLink_onlyFile ⟨false, false, allowing.jarEntries⟩ input
    (stringReplace input Word.jasminPrelinkSuffix Word.jasminSuffix) text hempty
  refine ⟨files, ?_⟩
  rw [runSteps_linkOnly _ _ (linkOnly_linkCommand outfile haccepted)]
  simp only [linkAsm, linkOptions, linkCommand, List.head?_nil, Option.getD_none, if_neg hcond,
    hlink, Option.bind_eq_bind, Option.bind_some, if_true]
  rfl

theorem honours_plj : ∃ files,
    runSteps allowing noSteps (linkCommand "foo.plj".toList none)
      ⟨onlyFile "foo.plj".toList [], []⟩ = some (.returned 0, files) ∧
    Honours none "foo.plj".toList (onlyFile "foo.plj".toList []) files := by
  obtain ⟨files, hrun⟩ := @runSteps_linkCommand "foo.plj".toList [] none (by decide) (.inl rfl)
  have hspared : Spared (linkCommand "foo.plj".toList none) "foo.plj".toList
      (onlyFile "foo.plj".toList []) :=
    .inr (.inr (show Word.jasminPrelinkSuffix <:+: "foo.plj".toList from
      ⟨"foo".toList, [], by decide⟩))
  have hiff := honours_iff_spared (linkOnly_linkCommand none (by decide)) (fun x hx => nomatch hx)
    hrun
  exact ⟨files, hrun, hiff.mpr hspared⟩

/-- A `.j` file is its own output, and `-o` is forgotten. -/
theorem not_honours_j :
    (∃ files, runSteps allowing noSteps (linkCommand "foo.j".toList none)
        ⟨onlyFile "foo.j".toList ".end method\n".toList, []⟩ = some (.returned 0, files) ∧
      ¬ Honours none "foo.j".toList (onlyFile "foo.j".toList ".end method\n".toList) files) ∧
    ∃ files, runSteps allowing noSteps (linkCommand "foo.plj".toList (some "bar.j".toList))
        ⟨onlyFile "foo.plj".toList [], []⟩ = some (.returned 0, files) ∧
      ¬ Honours (some "bar.j".toList) "foo.plj".toList (onlyFile "foo.plj".toList []) files := by
  have htouched {input text : Line} {outfile : Option Line} {ending : Ending} {files : Files}
      (hcmd : LinkOnly (linkCommand input outfile) input)
      (hrun : runSteps allowing noSteps (linkCommand input outfile) ⟨onlyFile input text, []⟩ =
        some (ending, files)) :
      stringReplace input Word.jasminPrelinkSuffix Word.jasminSuffix ∈ files.touched := by
    rw [runSteps_linkOnly _ _ hcmd] at hrun
    obtain ⟨⟨failed, opts, files'⟩, hlink, hfiles⟩ := Option.map_eq_some_iff.mp hrun
    cases hfiles
    rcases linkAsm_touches hcmd.inputs hcmd.accepted rfl hlink with ⟨hmissing, -⟩ | ⟨-, hmem, -⟩
    · simp [Files.fileExists, onlyFile] at hmissing
    · exact hmem
  constructor
  · obtain ⟨files, hrun⟩ := @runSteps_linkCommand "foo.j".toList ".end method\n".toList none
      (by decide) (.inr (by decide))
    have hmem := htouched (linkOnly_linkCommand none (by decide)) hrun
    exact ⟨files, hrun, fun h => h.1 _ hmem (by decide)⟩
  · obtain ⟨files, hrun⟩ := @runSteps_linkCommand "foo.plj".toList [] (some "bar.j".toList)
      (by decide) (.inl rfl)
    have hmem := htouched (linkOnly_linkCommand _ (by decide)) hrun
    exact ⟨files, hrun, fun h => absurd (h.1 _ hmem) (by decide)⟩

end examples

end Llxvm.Driver
