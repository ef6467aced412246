import Llxvm.Backend.RewrittenRuns
import Llxvm.Lib.LabelledRuns

/-!
# Runs of methods

What the lines do that are printed by their texts, and how the runs of pieces of code make up a run
of the method around them.
-/

namespace Llxvm.Backend

open Llxvm.Jvm Llxvm.Runtime LabelledCode

/-! ## Lines -/

/-- The result of a method and the memory behind it. -/
abbrev MethodResult := Option Val × Memory

/-- Calls of methods. -/
abbrev MethodCalls := Callee → Config → Effect MethodResult → Prop

/-- A return with a value of the letter. -/
def returnValue (p : Prefix) (c : Config) : Option (Effect MethodResult) :=
  match c.stack with
  | v :: _ => if v.letter = p then some (.leave (some v, c.memory)) else none
  | [] => none

/-- Returns, negations and calls of library methods. -/
def simpleEffect (math : MathFunction → List (BitVec 64) → BitVec 64) (inst : String)
    (c : Config) : Option (Effect MethodResult) :=
  match inst, c.stack with
  | "return", _ => some (.leave (none, c.memory))
  | "ireturn", _ => returnValue .i c
  | "lreturn", _ => returnValue .l c
  | "freturn", _ => returnValue .f c
  | "dreturn", _ => returnValue .d c
  | "fneg", .float x :: s => some (.next { c with stack := .float (x ^^^ 0x80000000#32) :: s })
  | "dneg", .double x :: s =>
      some (.next { c with stack := .double (x ^^^ 0x8000000000000000#64) :: s })
  | inst, stack => do
      let s ← callLibrary math (← LibraryMethod.named inst) stack
      return .next { c with stack := s }

/-- The lines of a method in which calls do what is given. -/
def methodEnv (env : Env) (math : MathFunction → List (BitVec 64) → BitVec 64)
    (call : MethodCalls) : LineEnv MethodResult where
  toEnv := env
  call := call
  simple inst c x := simpleEffect math inst c = some x

/-! ## Pieces of code -/

section run

variable {ρ : Type} {env : LineEnv ρ} {all rest : List Line}

theorem does_step {i : Instr} {c : Config} {o : LabelledCode.Outcome Label Config Throwable ρ}
    (h : stepOutcome (step env.toEnv i c) = some o) : (methodMachine env).Does (.instr i) c o := by
  intro o'
  change stepOutcome (step env.toEnv i c) = some o' ↔ o' = o
  rw [h, Option.some.injEq, eq_comm]

theorem does_next {i : Instr} {c c' : Config} (h : step env.toEnv i c = .next c') :
    (methodMachine env).Does (.instr i) c (.next c') :=
  does_step (congrArg stepOutcome h)

theorem does_simple {inst : String} {c : Config} {x : Effect ρ}
    (h : ∀ x', env.simple inst c x' ↔ x' = x) :
    (methodMachine env).Does (.simple inst) c x.outcome := by
  intro o
  change (∃ x', env.simple inst c x' ∧ o = x'.outcome) ↔ o = x.outcome
  simp only [h, exists_eq_left]

theorem does_call {callee : Callee} {c : Config} {x : Effect ρ}
    (h : ∀ x', env.call callee c x' ↔ x' = x) :
    (methodMachine env).Does (.call callee) c x.outcome := by
  intro o
  change (∃ x', env.call callee c x' ∧ o = x'.outcome) ↔ o = x.outcome
  simp only [h, exists_eq_left]

/-- A label is looked for behind the jump only. -/
theorem run_jump_cases (code : Code) (l : Label) (c : Config) :
    run env.toEnv code (some l) c = .jump l c ∨
      ∃ pre is, code = pre ++ .label l :: is ∧
        run env.toEnv code (some l) c = run env.toEnv is none c := by
  induction code with
  | nil => exact .inl rfl
  | cons i is ih =>
      rw [run]
      split_ifs with h
      · exact .inr ⟨[], is, by rw [h]; rfl, rfl⟩
      · rcases ih with hskip | ⟨pre, is', heq, hrun⟩
        · exact .inl hskip
        · exact .inr ⟨i :: pre, is', by rw [heq]; rfl, hrun⟩

/-- The run of a piece of code, wherever it stands in a method: it comes to what follows, or to a
label outside. -/
theorem runs_of_run {code : Code} {c : Config} {x : Exit} (h : run env.toEnv code none c = x)
    (hsuffix : lines code ++ rest <:+ all) :
    (∀ c', x = .fall c' → (methodMachine env).Runs all (lines code ++ rest, c) (rest, c')) ∧
      ∀ l c', x = .jump l c' → ∀ q, (methodMachine env).At all l q →
        (methodMachine env).Runs all (lines code ++ rest, c) (q, c') := by
  -- a jump forwards leaves less code
  induction hn : code.length using Nat.strong_induction_on generalizing code c with
  | _ n ih =>
      subst hn
      cases code with
      | nil =>
          obtain rfl : .fall c = x := h
          constructor
          · intro c' hx
            cases hx
            exact .refl _
          · intro l c' hx
            cases hx
      | cons i is =>
          have htail : lines is ++ rest <:+ all := (List.suffix_cons _ _).trans hsuffix
          rw [run] at h
          cases hstep : step env.toEnv i c with
          | next c₁ =>
              rw [hstep] at h
              have hfirst : (methodMachine env).Runs all (lines (i :: is) ++ rest, c)
                  (lines is ++ rest, c₁) := .next (does_next hstep) _
              obtain ⟨hfall, hjump⟩ := ih _ (Nat.lt_succ_self _) h htail rfl
              exact ⟨fun c' hx => hfirst.trans (hfall c' hx),
                fun l c' hx q hq => hfirst.trans (hjump l c' hx q hq)⟩
          | jump l c₁ =>
              rw [hstep] at h
              have hexec : (methodMachine env).Does (.instr i) c (.jump l c₁) :=
                does_step (congrArg stepOutcome hstep)
              rcases run_jump_cases is l c₁ with hskip | ⟨pre, js, heq, hrun⟩
              · obtain rfl := hskip.symm.trans h
                constructor
                · intro c' hx
                  cases hx
                · intro l' c' hx q hq
                  cases hx
                  exact .jump hexec hq
              · subst heq
                obtain ⟨hd, hall⟩ := htail
                have hat : (methodMachine env).At all l (.instr (.label l) :: (lines js ++ rest)) :=
                  Machine.at_of_eq
                    (show all = hd ++ lines pre ++ _ :: _ by rw [← hall]; simp) rfl
                have hfirst : (methodMachine env).Runs all
                    (lines (i :: (pre ++ .label l :: js)) ++ rest, c) (lines js ++ rest, c₁) :=
                  (Machine.Runs.jump hexec hat).trans (.next (does_next rfl) _)
                have hshort : js.length < (i :: (pre ++ .label l :: js)).length := by
                  simp only [List.length_cons, List.length_append]
                  omega
                obtain ⟨hfall, hjump⟩ := ih _ hshort (hrun.symm.trans h)
                  ((List.suffix_cons _ _).trans hat.1) rfl
                exact ⟨fun c' hx => hfirst.trans (hfall c' hx),
                  fun l c' hx q hq => hfirst.trans (hjump l c' hx q hq)⟩
          | throw e c₁ =>
              rw [hstep] at h
              subst h
              constructor
              · intro c' hx
                cases hx
              · intro l c' hx
                cases hx
          | stuck =>
              rw [hstep] at h
              subst h
              constructor
              · intro c' hx
                cases hx
              · intro l c' hx
                cases hx

variable (env) in
theorem runs_of_fall {code : Code} {c c' : Config} (h : run env.toEnv code none c = .fall c')
    (hsuffix : lines code ++ rest <:+ all) :
    (methodMachine env).Runs all (lines code ++ rest, c) (rest, c') :=
  (runs_of_run h hsuffix).1 c' rfl

variable (env) in
theorem runs_of_jump {code : Code} {c c' : Config} {l : Label}
    (h : run env.toEnv code none c = .jump l c') (hsuffix : lines code ++ rest <:+ all)
    {q : List Line} (hq : (methodMachine env).At all l q) :
    (methodMachine env).Runs all (lines code ++ rest, c) (q, c') :=
  (runs_of_run h hsuffix).2 l c' rfl q hq

variable (env) in
/-- Wherever the lines stand in a method, they run from one configuration to another one. -/
def LinesRun (ls : List Line) (c c' : Config) : Prop :=
  ∀ all rest, ls ++ rest <:+ all → (methodMachine env).Runs all (ls ++ rest, c) (rest, c')

namespace LinesRun

variable {ls ls' : List Line} {c c' c'' : Config}

theorem nil (c : Config) : LinesRun env [] c c := fun _ _ _ => .refl _

theorem append (h : LinesRun env ls c c') (h' : LinesRun env ls' c' c'') :
    LinesRun env (ls ++ ls') c c'' := by
  intro all rest hsuffix
  rw [List.append_assoc] at hsuffix ⊢
  exact (h all _ hsuffix).trans (h' all rest ((List.suffix_append _ _).trans hsuffix))

theorem of_fall {code : Code} (h : run env.toEnv code none c = .fall c') :
    LinesRun env (lines code) c c' := fun _ _ hsuffix => runs_of_fall env h hsuffix

theorem simple {inst : String} (h : ∀ x, env.simple inst c x ↔ x = .next c') :
    LinesRun env [.simple inst] c c' := fun _ rest _ => .next (does_simple h) rest

theorem call {callee : Callee} (h : ∀ x, env.call callee c x ↔ x = .next c') :
    LinesRun env [.call callee] c c' := fun _ rest _ => .next (does_call h) rest

end LinesRun

end run

end Llxvm.Backend
