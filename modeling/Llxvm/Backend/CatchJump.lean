import Llxvm.Backend.MethodSlots
import Llxvm.Backend.RunLines
import Llxvm.Lib.Escapes

/-!
# Handlers of jumps

A method that calls `setjmp` keeps the number of the last jump of each call in a local variable, and
has a handler that compares the number of a `Jump` with all of them.  A jump is thrown on from one
activation to the next, until the handler of one of them has kept its number.
-/

namespace Llxvm.Backend

open Llxvm.Jvm Llxvm.Runtime

/-! ## Methods and activations -/

/-- What `printFunction` prints.  What is called or jumped to by its value is an argument or an
instruction: class verification refuses to load another local variable, as nothing stores to it. -/
def Translated (m : MethodText) : Prop :=
  ∃ (opts : GenerationOpts) (skip : Bool) (f : FunctionDef) (curBasicblockMapId maxOperands : ℕ)
    (w w' : Writer), f.WellFormed ∧
    (∀ b ∈ f.blocks, ∀ inst ∈ b.insts, ∀ v, inst.op.register = some v → v ∈ f.locals) ∧
    w.Reachable opts ∧ printFunction opts skip f curBasicblockMapId maxOperands w = some (m, w')

structure TranslatedMethod where
  text : MethodText
  translated : Translated text

/-- The local variable that is compared with the number of a jump. -/
def Line.comparedVar : Line → Option ℕ
  | .instr (.if_icmpeq (.setjmp i)) => some i
  | _ => none

def MethodText.comparedVars (m : MethodText) : List ℕ := m.handler.filterMap Line.comparedVar

/-- What follows a call of `setjmp`, which returns here again. -/
def storeJump (n : ℕ) : Code := [.store .i .plain n, .const .i 0, .label (.setjmp n)]

/-- The text calls `setjmp` for the address that `operands` push, and keeps the number in the local
variable `n`. -/
def MethodText.CallsSetjmp (m : MethodText) (operands : Code) (n : ℕ) : Prop :=
  ∃ p ∈ m.body.flatMap Segment.insts, p.1.op.isSetjmp = true ∧
    ∃ callee rest, p.2 = Backend.lines operands ++ [.call callee] ++
      Backend.lines (storeJump n) ++ rest

/-- A running method; activations have different numbers. -/
structure Activation where
  serial : ℕ
  method : TranslatedMethod
  locals : Locals

namespace Activation

variable (act : Activation)

def comparedVars : List ℕ := act.method.text.comparedVars

/-- The local variables for the numbers of the jumps have been initialised. -/
def Initialised : Prop := ∀ n ∈ act.comparedVars, ∃ id, act.locals n = some (.int id)

/-- The number of a jump that a local variable keeps; no jump has the number `0`. -/
def kept (n : ℕ) : Option (BitVec 32) :=
  if n ∈ act.comparedVars then
    match act.locals n with
    | some (.int id) => if id = 0#32 then none else some id
    | _ => none
  else none

def frame : Escapes.Frame ℕ ℕ (BitVec 32) := ⟨act.serial, act.kept⟩

variable {act}

theorem kept_eq_some {n : ℕ} {id : BitVec 32} (hid : id ≠ 0#32) :
    act.kept n = some id ↔ n ∈ act.comparedVars ∧ act.locals n = some (.int id) := by
  unfold kept
  split_ifs with hn
  · simp only [hn, true_and]
    split
    · next x hx =>
        rw [hx]
        split_ifs with hzero
        · subst hzero
          simpa using hid.symm
        · simp
    · next hx =>
        refine iff_of_false (by simp) fun h => ?_
        exact hx id h
  · simp [hn]

theorem kept_congr {locals : Locals} (h : ∀ n ∈ act.comparedVars, locals n = act.locals n) :
    ({ act with locals := locals } : Activation).kept = act.kept := by
  funext n
  by_cases hn : n ∈ act.comparedVars
  · have hn' : n ∈ ({ act with locals := locals } : Activation).comparedVars := hn
    simp only [kept, if_pos hn, if_pos hn', h n hn]
  · have hn' : n ∉ ({ act with locals := locals } : Activation).comparedVars := hn
    simp only [kept, if_neg hn, if_neg hn']

/-- Storing the number of a jump changes no other variable for one. -/
theorem set_comparedVars (hinit : act.Initialised) {n i : ℕ} {id : BitVec 32} (hne : i ≠ n)
    (hi : i ∈ act.comparedVars) : act.locals.set n (.int id) i = act.locals i := by
  obtain ⟨x, hx⟩ := hinit i hi
  refine Locals.set_of_ne _ _ _ hne (fun hwide => ?_) fun hwide => ?_
  · cases hwide
  · rw [hx] at hwide
    cases hwide

theorem frame_set (hinit : act.Initialised) {n : ℕ} (hn : n ∈ act.comparedVars) {id : BitVec 32}
    (hid : id ≠ 0#32) : ({ act with locals := act.locals.set n (.int id) } : Activation).frame =
      act.frame.give n id := by
  have hkept : ({ act with locals := act.locals.set n (.int id) } : Activation).kept =
      Function.update act.kept n (some id) := by
    funext i
    by_cases heq : i = n
    · subst heq
      rw [Function.update_self]
      exact (kept_eq_some hid).mpr ⟨hn, Locals.set_self ..⟩
    · rw [Function.update_of_ne heq]
      by_cases hi : i ∈ act.comparedVars
      · have hi' : i ∈
            ({ act with locals := act.locals.set n (.int id) } : Activation).comparedVars := hi
        simp only [kept, if_pos hi, if_pos hi', set_comparedVars hinit heq hi]
      · have hi' : i ∉
            ({ act with locals := act.locals.set n (.int id) } : Activation).comparedVars := hi
        simp only [kept, if_neg hi, if_neg hi']
  simp only [frame, Escapes.Frame.give, hkept]

end Activation

/-! ## Unwinding -/

section handle

variable (env : Env) (math : MathFunction → List (BitVec 64) → BitVec 64)

/-- A jump comes to a method: the handler is for the whole body. -/
def handle (act : Activation) (id value : BitVec 32) (m : Memory) : Exit :=
  match act.method.text.handler with
  | .catching _ _ handler :: ls =>
      runLines env math ls (some handler) ⟨act.locals, [.ref (.jump id value)], m⟩
  | _ => .throw (.jump id value) ⟨act.locals, [], m⟩

/-- Where a jump that was thrown goes on. -/
structure Landing where
  label : Label
  stack : List Val
  memory : Memory
  act : Activation
  outer : List Activation

/-- A jump is thrown in the innermost activation. -/
def unwind (id value : BitVec 32) (m : Memory) : List Activation → Option Landing
  | [] => none
  | act :: acts =>
      match handle env math act id value m with
      | .jump l c => some ⟨l, c.stack, c.memory, { act with locals := c.locals }, acts⟩
      | .throw (.jump id value) c => unwind id value c.memory acts
      | _ => none

end handle

/-! ## Texts -/

theorem comparedVars_handlerLines (v n : ℕ) :
    (handlerLines v n).filterMap Line.comparedVar = comparedSlots v n := by
  have htests : ∀ vars : List ℕ, (lines (vars.flatMap fun i => [Instr.load .a .plain v,
      .getfield .id, .load .i .plain i, .if_icmpeq (.setjmp i)])).filterMap Line.comparedVar =
        vars := by
    intro vars
    induction vars with
    | nil => rfl
    | cons i vars ih =>
        rw [List.flatMap_cons, lines_append, List.filterMap_append, ih]
        rfl
  unfold handlerLines
  split_ifs with hn
  · rw [hn]
    rfl
  · rw [List.filterMap_cons_none rfl, lines_append, lines_append, List.filterMap_append,
      List.filterMap_append, catchTests, htests]
    exact List.append_nil _

/-- The call in the lines of a call of `setjmp` is the first one. -/
theorem StoresJump.unique {ls : List Line} {n n' : ℕ} (h : StoresJump ls n)
    (h' : StoresJump ls n') : n = n' := by
  obtain ⟨operands, callee, rest, rfl⟩ := h
  obtain ⟨operands', callee', rest', heq⟩ := h'
  simp only [List.append_assoc] at heq
  induction operands generalizing operands' with
  | nil =>
      cases operands' with
      | nil =>
          simp only [lines_nil, lines_cons, List.nil_append, List.cons_append, List.cons.injEq,
            Line.instr.injEq, Instr.store.injEq, true_and] at heq
          exact heq.2.1
      | cons i is => simp at heq
  | cons i is ih =>
      cases operands' with
      | nil => simp at heq
      | cons i' is' =>
          simp only [lines_cons, List.cons_append, List.cons.injEq] at heq
          exact ih is' heq.2

/-! ## Translated methods -/

section prologue

variable {env : Env} {math : MathFunction → List (BitVec 64) → BitVec 64}

theorem runLines_lines (is : Code) (l : Option Label) (c : Config) :
    runLines env math (lines is) l c = run env is l c := by
  have h : runLines env math (lines is ++ []) l c = _ := runLines_code_append is [] l c
  rw [List.append_nil] at h
  rw [h]
  cases run env is l c <;> rfl

theorem run_storeConstants (vars : List (Prefix × Form × ℕ)) (c : Config) :
    (∃ locals, run env (storeConstants vars) none c = .fall { c with locals := locals }) ∨
      run env (storeConstants vars) none c = .stuck := by
  induction vars generalizing c with
  | nil => exact .inl ⟨c.locals, rfl⟩
  | cons var vars ih =>
      obtain ⟨p, form, n⟩ := var
      have hfirst : (∃ locals, run env [.const p 0, .store p form n] none c =
          .fall { c with locals := locals }) ∨
          run env [.const p 0, .store p form n] none c = .stuck := by
        cases p with
        | i => exact .inl ⟨_, rfl⟩
        | l => exact .inl ⟨_, rfl⟩
        | f => exact .inl ⟨_, rfl⟩
        | d => exact .inl ⟨_, rfl⟩
        | a => exact .inr rfl
        | b => exact .inr rfl
        | s => exact .inr rfl
      rw [storeConstants, List.flatMap_cons, run_append]
      rcases hfirst with ⟨locals, hfirst⟩ | hfirst
      · rw [hfirst]
        exact ih { c with locals := locals }
      · rw [hfirst]
        exact .inr rfl

theorem run_createStackFrame (c : Config) :
    run env [.label .beginMethod, .invokestatic .createStackFrame] none c =
      match Memory.createStackFrame c.memory with
      | .ok _ m => .fall { c with memory := m }
      | .error e m => .throw e { c with memory := m } := by
  have hinvoke : invoke env .createStackFrame (c.stack.take 0).reverse =
      some (do Memory.createStackFrame; return none) := rfl
  simp only [run, step, MethodRef.arity, hinvoke, bind, EStateM.bind]
  generalize Memory.createStackFrame c.memory = call
  cases call <;> rfl

end prologue

/-- The calls of `setjmp` in a method and its handler fit together: `v` is the local variable of the
jump that was caught, `n` the number of calls. -/
structure HandlesJumps (m : MethodText) (v n : ℕ) : Prop where
  le : n ≤ v
  handler : m.handler = handlerLines v n
  calls : ∀ operands k, m.CallsSetjmp operands k → k ∈ comparedSlots v n
  prologue : ∀ env math locals memory c,
    runLines env math m.prologue none ⟨locals, [], memory⟩ = .fall c →
      Memory.createStackFrame memory = .ok () c.memory ∧
        ∀ k ∈ comparedSlots v n, c.locals k = some (.int 0#32)

theorem HandlesJumps.comparedVars {m : MethodText} {v n : ℕ} (h : HandlesJumps m v n) :
    m.comparedVars = comparedSlots v n := by
  rw [MethodText.comparedVars, h.handler, comparedVars_handlerLines]

theorem Translated.handlesJumps {m : MethodText} (h : Translated m) :
    ∃ v n, HandlesJumps m v n := by
  obtain ⟨opts, skip, f, curBasicblockMapId, maxOperands, w, w', hf, hlocals, hw, hprint⟩ := h
  obtain ⟨vaArgNum, w₁, w₂, hparts, -, -⟩ := printFunction_parts hf hw.ready.2 hprint
  obtain ⟨hused, hcalls⟩ := hparts.jumpSlots hf hlocals
  obtain ⟨init, hinit, hprologue⟩ := hparts.prologue
  refine ⟨w₂.usedRegisters, f.numJumps, hused ▸ Nat.le_add_left _ _, hparts.handler, ?_, ?_⟩
  · rintro operands k ⟨p, hp, hsetjmp, callee, rest, htext⟩
    have hmem : p.2 ∈ setjmpCalls (m.body.flatMap Segment.insts) :=
      List.mem_map_of_mem (List.mem_filter.mpr ⟨hp, hsetjmp⟩)
    obtain ⟨i, hi, heq⟩ := List.mem_iff_getElem.mp hmem
    have hi' : i < (comparedSlots w₂.usedRegisters f.numJumps).length := hcalls.length_eq ▸ hi
    have hstores : StoresJump p.2 (comparedSlots w₂.usedRegisters f.numJumps)[i] :=
      heq ▸ hcalls.get hi hi'
    obtain rfl := hstores.unique ⟨operands, callee, rest, htext⟩
    exact List.getElem_mem hi'
  · intro env math locals memory c hrun
    obtain ⟨vars, rfl⟩ := hinit.stores
    rw [hprologue, runLines_lines, List.append_assoc, List.append_assoc, run_append] at hrun
    rcases run_storeConstants vars ⟨locals, [], memory⟩ with ⟨locals', hstart⟩ | hstart
    · obtain ⟨locals'', hids, hzero⟩ :=
        run_initJumps env w₁.usedRegisters f.numJumps ⟨locals', [], memory⟩
      rw [hstart] at hrun
      change run env (initJumps _ _ ++ _) none _ = _ at hrun
      rw [run_append_of_fall hids] at hrun
      -- behind the initialisation, the prologue only creates the frame
      change run env [.label .beginMethod, .invokestatic .createStackFrame] none _ = _ at hrun
      rw [run_createStackFrame] at hrun
      cases hcall : Memory.createStackFrame memory with
      | error e m =>
          simp only [hcall] at hrun
          cases hrun
      | ok r m =>
          simp only [hcall] at hrun
          cases hrun
          refine ⟨rfl, fun k hk => ?_⟩
          rw [comparedSlots, hused, Nat.add_sub_cancel, List.mem_range'_1] at hk
          rw [← Nat.add_sub_cancel' hk.1]
          exact hzero _ (by omega)
    · rw [hstart] at hrun
      cases hrun

theorem Activation.mem_comparedVars (act : Activation) {operands : Code} {n : ℕ}
    (hsite : act.method.text.CallsSetjmp operands n) : n ∈ act.comparedVars := by
  obtain ⟨v, jumps, h⟩ := act.method.translated.handlesJumps
  have hvars : act.comparedVars = comparedSlots v jumps := h.comparedVars
  rw [hvars]
  exact h.calls operands n hsite

/-- The label behind a call of `setjmp` is defined once. -/
theorem Translated.count_setjmp {m : MethodText} (h : Translated m) {operands : Code} {n : ℕ}
    (hcall : m.CallsSetjmp operands n) : (labels m.lines).count (.setjmp n) = 1 := by
  obtain ⟨opts, skip, f, curBasicblockMapId, maxOperands, w, w', hf, -, hw, hprint⟩ := h
  obtain ⟨vaArgNum, w₁, w₂, hparts, -, -⟩ := printFunction_parts hf hw.ready.2 hprint
  refine List.count_eq_one_of_mem hparts.nodup ?_
  obtain ⟨p, hp, -, callee, rest, htext⟩ := hcall
  obtain ⟨seg, hseg, hp⟩ := List.mem_flatMap.mp hp
  have hline : Line.instr (.label (.setjmp n)) ∈ m.lines := by
    refine List.mem_append_right _ (List.mem_append_left _ (List.mem_flatMap.mpr ⟨seg, hseg, ?_⟩))
    cases seg with
    | header label => cases hp
    | back jump => cases hp
    | block id label insts =>
        refine List.mem_append_right _ (List.mem_flatMap.mpr ⟨p, hp, ?_⟩)
        simp [htext, storeJump]
  exact List.mem_flatMap.mpr ⟨_, hline, List.mem_singleton_self _⟩

/-! ## The handler -/

section handler

variable (env : Env) (math : MathFunction → List (BitVec 64) → BitVec 64) {act : Activation}
  {id : BitVec 32} (value : BitVec 32) (m : Memory)

/-- The tests go to the first local variable that has the number of the jump. -/
theorem run_catchTests {v : ℕ} {locals : Locals} (stack : List Val) {vars : List ℕ}
    (hv : locals v = some (.ref (.jump id value)))
    (hvars : ∀ i ∈ vars, ∃ n, locals i = some (.int n)) :
    run env (vars.flatMap fun i => [.load .a .plain v, .getfield .id, .load .i .plain i,
      .if_icmpeq (.setjmp i)]) none ⟨locals, stack, m⟩ =
      match vars.find? fun i => locals i = some (.int id) with
      | some i => .jump (.setjmp i) ⟨locals, stack, m⟩
      | none => .fall ⟨locals, stack, m⟩ := by
  induction vars with
  | nil => rfl
  | cons i vars ih =>
      obtain ⟨n, hn⟩ := hvars i List.mem_cons_self
      have htest : run env [.load .a .plain v, .getfield .id, .load .i .plain i,
          .if_icmpeq (.setjmp i)] none ⟨locals, stack, m⟩ =
          if id = n then .jump (.setjmp i) ⟨locals, stack, m⟩ else .fall ⟨locals, stack, m⟩ := by
        simp only [run, step, hv, hn, Val.letter, if_true]
        split_ifs <;> rfl
      rw [List.flatMap_cons, run_append, htest, List.find?_cons]
      by_cases heq : id = n
      · subst heq
        simp only [if_true, hn, decide_true]
        exact run_skip (by simp) _
      · have hne : decide (locals i = some (.int id)) = false := by simp [hn, Ne.symm heq]
        rw [if_neg heq, hne]
        exact ih fun j hj => hvars j (List.mem_cons_of_mem i hj)

/-- The handler goes on behind the call of `setjmp` that has the number of the jump, or throws the
jump on. -/
theorem handle_cases (hinit : act.Initialised) :
    (∃ n locals, act.locals n = some (.int id) ∧ n ∈ act.comparedVars ∧
      (∀ i ∈ act.comparedVars, locals i = act.locals i) ∧
      handle env math act id value m = .jump (.setjmp n) ⟨locals, [.int value], m⟩) ∨
    (∀ n ∈ act.comparedVars, act.locals n ≠ some (.int id)) ∧
      ∃ c, handle env math act id value m = .throw (.jump id value) c ∧ c.memory = m := by
  obtain ⟨v, n, h⟩ := act.method.translated.handlesJumps
  have hvars : act.comparedVars = comparedSlots v n := h.comparedVars
  unfold handle
  rw [h.handler, handlerLines]
  rcases Nat.eq_zero_or_pos n with rfl | hn
  · refine .inr ⟨fun i hi => ?_, ⟨act.locals, [], m⟩, rfl, rfl⟩
    rw [hvars] at hi
    cases hi
  · rw [if_neg hn.ne']
    -- the caught jump has a local variable of its own
    let locals : Locals := act.locals.set v (.ref (.jump id value))
    have hsame : ∀ i ∈ act.comparedVars, locals i = act.locals i := by
      intro i hi
      obtain ⟨x, hx⟩ := hinit i hi
      rw [hvars, comparedSlots, List.mem_range'_1] at hi
      have hle := h.le
      refine Locals.set_of_ne _ _ _ (by omega) (fun hwide => ?_) fun hwide => ?_
      · cases hwide
      · rw [hx] at hwide
        cases hwide
    have hkeeps : ∀ i ∈ comparedSlots v n, ∃ x, locals i = some (.int x) := by
      intro i hi
      rw [← hvars] at hi
      rw [hsame i hi]
      exact hinit i hi
    have htests := run_catchTests env value m [.int value] (Locals.set_self ..) hkeeps
    have hrun : run env ([.label .catchJump] ++ [.store .a .plain v, .load .a .plain v,
        .getfield .value] ++ catchTests v n ++ [.pop, .load .a .plain v, .athrow])
        (some .catchJump) ⟨act.locals, [.ref (.jump id value)], m⟩ =
        (run env (catchTests v n) none ⟨locals, [.int value], m⟩).andThen env
          [.pop, .load .a .plain v, .athrow] := by
      rw [← run_append]
      simp only [List.cons_append, List.nil_append, run, step, if_true, Val.letter,
        Locals.set_self, locals]
    simp only [runLines_lines]
    rw [hrun, catchTests]
    rw [comparedSlots] at htests
    rw [htests]
    cases hfind : (List.range' (v - n) n).find? fun i => locals i = some (.int id) with
    | some i =>
        have hi : i ∈ act.comparedVars := hvars ▸ List.mem_of_find?_eq_some hfind
        have hid : locals i = some (.int id) := by simpa using List.find?_some hfind
        exact .inl ⟨i, locals, by rw [← hsame i hi, hid], hi, hsame, run_skip (by simp) _⟩
    | none =>
        refine .inr ⟨fun i hi hid => ?_, ⟨locals, [.ref (.jump id value)], m⟩, ?_, rfl⟩
        · have hi' : i ∈ comparedSlots v n := hvars ▸ hi
          have hnone := List.find?_eq_none.mp hfind i hi'
          rw [hsame i hi, hid] at hnone
          simp at hnone
        · simp only [Exit.andThen, run, step, Val.isWide, Bool.false_eq_true, if_false, locals,
            Locals.set_self, Val.letter, if_true]

theorem unwind_cons (acts : List Activation) (hid : id ≠ 0#32) (hinit : act.Initialised) :
    (∃ n locals, act.kept n = some id ∧ (∀ i ∈ act.comparedVars, locals i = act.locals i) ∧
      unwind env math id value m (act :: acts) =
        some ⟨.setjmp n, [.int value], m, { act with locals := locals }, acts⟩) ∨
    (∀ n, act.kept n ≠ some id) ∧
      unwind env math id value m (act :: acts) = unwind env math id value m acts := by
  rcases handle_cases env math value m hinit with
    ⟨n, locals, hkept, hn, hsame, hhandle⟩ | ⟨hnone, c, hhandle, hmemory⟩
  · refine .inl ⟨n, locals, (Activation.kept_eq_some hid).mpr ⟨hn, hkept⟩, hsame, ?_⟩
    rw [unwind, hhandle]
  · refine .inr ⟨fun n hn => ?_, ?_⟩
    · obtain ⟨hmem, hkept⟩ := (Activation.kept_eq_some hid).mp hn
      exact hnone n hmem hkept
    · rw [unwind, hhandle]
      simp only [hmemory]

variable {acts : List Activation}

/-- A jump whose number has been kept goes on somewhere. -/
theorem exists_unwind (hid : id ≠ 0#32) (hinit : ∀ act ∈ acts, act.Initialised)
    (hact : act ∈ acts) {n : ℕ} (hkept : act.kept n = some id) :
    ∃ l, unwind env math id value m acts = some l := by
  induction acts with
  | nil => cases hact
  | cons a acts ih =>
      rcases unwind_cons env math value m acts hid (hinit a List.mem_cons_self) with
        ⟨n, locals, -, -, hunwind⟩ | ⟨hnone, hunwind⟩
      · exact ⟨_, hunwind⟩
      · rw [hunwind]
        rcases List.mem_cons.mp hact with rfl | hact
        · exact (hnone n hkept).elim
        · exact ih (fun act hact => hinit act (List.mem_cons_of_mem a hact)) hact

variable {env math value m}

/-- A jump goes on in the innermost activation that has kept its number. -/
theorem unwind_lands (hid : id ≠ 0#32) (hinit : ∀ act ∈ acts, act.Initialised) {l : Landing}
    (h : unwind env math id value m acts = some l) :
    ∃ inner act n locals outer, acts = inner ++ act :: outer ∧
      Escapes.Lands (acts.map Activation.frame) id act.frame n (outer.map Activation.frame) ∧
      (∀ i ∈ act.comparedVars, locals i = act.locals i) ∧
      l = ⟨.setjmp n, [.int value], m, { act with locals := locals }, outer⟩ := by
  induction acts with
  | nil => cases h
  | cons a acts ih =>
      rcases unwind_cons env math value m acts hid (hinit a List.mem_cons_self) with
        ⟨n, locals, hkept, hsame, hunwind⟩ | ⟨hnone, hunwind⟩
      · rw [hunwind] at h
        cases h
        exact ⟨[], a, n, locals, acts, rfl, ⟨[], rfl, by simp, hkept⟩, hsame, rfl⟩
      · rw [hunwind] at h
        obtain ⟨inner, act, n, locals, outer, rfl, ⟨inner', hframes, hinner, hkept⟩, hsame, rfl⟩ :=
          ih (fun act hact => hinit act (List.mem_cons_of_mem a hact)) h
        refine ⟨a :: inner, act, n, locals, outer, rfl,
          ⟨a.frame :: inner', by rw [List.map_cons, hframes, List.cons_append], ?_, hkept⟩, hsame,
          rfl⟩
        rintro g hg
        rcases List.mem_cons.mp hg with rfl | hg
        · exact hnone
        · exact hinner g hg

end handler

/-! ## A function that comes to a call again -/

/-- `for (e = p; ; e = q) { setjmp(e); if (e == q) break; } longjmp(p, 1);` -/
def retryFunction : FunctionDef where
  ref := ⟨"f", ⟨[.pointer, .pointer], false, none⟩, false⟩
  hasLocalLinkage := false
  args := [⟨0, .pointer⟩, ⟨1, .pointer⟩]
  blocks := [⟨0, "entry", [], [⟨none, .br (.unconditional 0 1)⟩]⟩,
    ⟨1, "for", [⟨⟨2, .pointer⟩, [(0, .var ⟨0, .pointer⟩), (1, .var ⟨1, .pointer⟩)]⟩],
      [⟨some ⟨3, .int .w32⟩, .call (.const (.function ⟨"setjmp", ⟨[.pointer], false,
          some (.int .w32)⟩, true⟩)) ⟨[.pointer], false, some (.int .w32)⟩ [.var ⟨2, .pointer⟩]⟩,
        ⟨some ⟨4, .int .w1⟩, .cmp (.icmp .eq) (.var ⟨2, .pointer⟩) (.var ⟨1, .pointer⟩)⟩,
        ⟨none, .br (.conditional 1 (.var ⟨4, .int .w1⟩) 2 1)⟩]⟩,
    ⟨2, "break", [], [⟨none, .call (.const (.function ⟨"longjmp", ⟨[.pointer, .int .w32], false,
        none⟩, true⟩)) ⟨[.pointer, .int .w32], false, none⟩
        [.var ⟨0, .pointer⟩, .const (.int .w32 1#32)]⟩, ⟨none, .ret none⟩]⟩]
  loopInfo := .nest [[1]]

theorem retryFunction_wellFormed : retryFunction.WellFormed := by
  have hlocals : retryFunction.locals = [⟨0, .pointer⟩, ⟨1, .pointer⟩, ⟨2, .pointer⟩,
    ⟨3, .int .w32⟩, ⟨4, .int .w1⟩] := rfl
  refine .of_blocks (LoopInfo.wellFormed_nest (by simp) (by simp [retryFunction]))
    (by simp [retryFunction]) (by simp [retryFunction]) (by simp [hlocals]) ?_ ?_
  · rw [hlocals]
    simp [retryFunction, or_imp, forall_and, Value.In]
  · simp only [FunctionDef.accepts_iff, hlocals]
    simp [retryFunction, Operation.operands, BranchInst.condition, Operation.successors,
      BranchInst.successors, Operation.register, Operation.swapParameter, Value.In]

theorem isSome_printFunction_retry :
    (printFunction plainOpts false retryFunction 0 2 .start).isSome = true := by
  decide +kernel

@[irreducible] def retryText : MethodText :=
  ((printFunction plainOpts false retryFunction 0 2 .start).get isSome_printFunction_retry).1

theorem translated_retryText : Translated retryText := by
  obtain ⟨w', hprint⟩ := exists_eq_some_get isSome_printFunction_retry
  rw [← retryText] at hprint
  exact ⟨plainOpts, false, retryFunction, 0, 2, .start, w', retryFunction_wellFormed,
    by simp [retryFunction, Operation.register], .start rfl rfl, hprint⟩

theorem comparedVars_retry : retryText.comparedVars = [5] := by
  decide +kernel

theorem callsSetjmp_retry : retryText.CallsSetjmp [.load .i .short 2] 5 := by
  have htext : (true, lines [.load .i .short 2] ++ [.call (.method none ⟨"setjmp", [.I], .I⟩)] ++
      lines (storeJump 5) ++ [.instr (.store .i .short 3)]) ∈
      (retryText.body.flatMap Segment.insts).map fun p => (p.1.op.isSetjmp, p.2) := by
    decide +kernel
  obtain ⟨p, hp, heq⟩ := List.mem_map.mp htext
  obtain ⟨hsetjmp, hlines⟩ := Prod.ext_iff.mp heq
  exact ⟨p, hp, hsetjmp, _, _, hlines⟩

theorem prologue_retry : retryText.prologue =
    lines (storeConstants [(.i, .plain, 2), (.i, .plain, 3), (.i, .plain, 4), (.i, .plain, 5)] ++
      [.label .beginMethod, .invokestatic .createStackFrame]) := by
  decide +kernel

def retryMethod : TranslatedMethod := ⟨retryText, translated_retryText⟩

end Llxvm.Backend
