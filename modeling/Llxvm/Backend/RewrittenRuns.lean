import Llxvm.Backend.BranchRange
import Llxvm.Backend.RewrittenBody
import Llxvm.Backend.RunLines
import Llxvm.Jvm.StackEffects
import Llxvm.Lib.LabelledCode

/-!
# Runs of methods with rewritten branches

A method does the same with and without `jvm_rewrite_branches`: from equal configurations at a label
both execute the same instructions apart from branches, and come to the same labels with equal
configurations.
-/

namespace Llxvm.Backend

open Llxvm.Jvm Llxvm.Runtime

/-! ## Runs -/

/-- What a line may do that is not a branch: it returns, or leaves the method with a result of the
type `ρ`. -/
inductive Effect (ρ : Type) where
  | next (c : Config)
  | throw (e : Throwable) (c : Config)
  | leave (r : ρ)

/-- The lines that are no JVM instructions with a meaning of their own: calls of translated methods,
and the other instructions, which `return` is one of. -/
structure LineEnv (ρ : Type) extends Env where
  call : Callee → Config → Effect ρ → Prop
  simple : String → Config → Effect ρ → Prop

/-- Branches, and directives. -/
def Line.isBranch : Line → Bool
  | .instr (.goto _ _) => true
  | .instr (.ifne _) => true
  | .instr (.ifeq _) => true
  | .instr (.if_icmpeq _) => true
  | .instr (.label _) => true
  | .lookupswitch _ _ => true
  | .catching _ _ _ => true
  | _ => false

section machine

variable {ρ : Type} (env : LineEnv ρ)

def Effect.outcome : Effect ρ → LabelledCode.Outcome Label Config Throwable ρ
  | next c => .next c
  | throw e c => .throw e c
  | leave r => .leave r

/-- The outcome of an instruction that is not stuck. -/
def stepOutcome : Outcome → Option (LabelledCode.Outcome Label Config Throwable ρ)
  | .next c => some (.next c)
  | .jump l c => some (.jump l c)
  | .throw e c => some (.throw e c)
  | .stuck => none

def execLine (line : Line) (c : Config) (o : LabelledCode.Outcome Label Config Throwable ρ) :
    Prop :=
  match line with
  | .instr i => stepOutcome (step env.toEnv i c) = some o
  | .call callee => ∃ x, env.call callee c x ∧ o = x.outcome
  | .simple inst => ∃ x, env.simple inst c x ∧ o = x.outcome
  | .lookupswitch cases default =>
      ∃ v s, c.stack = .int v :: s ∧ o = .jump (switchTarget cases default v) { c with stack := s }
  | .catching _ _ _ => o = .next c

/-- The handlers are for `llxvm/runtime/Jump`, with the exception on the stack. -/
def caughtJump : Throwable → Config → Option Config
  | .jump id value, c => some { c with stack := [.ref (.jump id value)] }
  | _, _ => none

/-- Methods as labelled code, in which one sees what is executed apart from branches. -/
def methodMachine : LabelledCode.Machine Line Label Config Throwable ρ where
  exec := execLine env
  label
    | .instr (.label l) => some l
    | _ => none
  catching
    | .catching start stop handler => some (start, stop, handler)
    | _ => none
  caught := caughtJump
  observed line := !line.isBranch

end machine

/-! ## Rewritten texts -/

section rewritten

variable {ρ : Type} {env : LineEnv ρ} {ls ls' : List Line}

theorem labels_methodMachine (ls : List Line) : (methodMachine env).labels ls = labels ls := by
  induction ls with
  | nil => rfl
  | cons line ls ih =>
      rw [labels_cons, ← ih]
      unfold LabelledCode.Machine.labels methodMachine Line.labels
      split <;> simp_all

theorem switchTarget_mem (cases : List (ℤ × Label)) (default : Label) (v : BitVec 32) :
    switchTarget cases default v = default ∨ ∃ c ∈ cases, switchTarget cases default v = c.2 := by
  unfold switchTarget
  cases h : cases.find? fun c => BitVec.ofInt 32 c.1 = v with
  | none => exact .inl rfl
  | some c => exact .inr ⟨c, List.mem_of_find?_eq_some h, rfl⟩

/-- A line that is kept does not go to the label of a rewritten branch. -/
theorem execLine_jump {line : Line} (h : line.isKept) {c c' : Config} {l : Label}
    (hexec : execLine env line c (.jump l c')) : isBr l = false := by
  cases line with
  | instr i =>
      have hjump : l ∈ i.jumps := by
        simp only [execLine] at hexec
        cases hstep : step env.toEnv i c with
        | jump l' c'' =>
            rw [hstep] at hexec
            cases hexec
            exact (step_jump hstep).1
        | next c'' =>
            rw [hstep] at hexec
            cases hexec
        | throw e c'' =>
            rw [hstep] at hexec
            cases hexec
        | stuck =>
            rw [hstep] at hexec
            cases hexec
      cases i <;> simp_all [Instr.jumps, Line.isKept]
  | call callee =>
      obtain ⟨x, -, heq⟩ := hexec
      cases x <;> cases heq
  | simple inst =>
      obtain ⟨x, -, heq⟩ := hexec
      cases x <;> cases heq
  | lookupswitch cases default =>
      obtain ⟨v, s, -, heq⟩ := hexec
      cases heq
      simp only [Line.isKept, Bool.and_eq_true, Bool.not_eq_true', List.all_eq_true] at h
      rcases switchTarget_mem cases default v with htarget | ⟨k, hk, htarget⟩
      · rw [htarget]
        exact h.1
      · rw [htarget]
        exact h.2 k hk
  | catching start stop handler => cases hexec

theorem same_of_isKept {line : Line} (h : line.isKept) :
    LabelledCode.Same (methodMachine env) (fun l => isBr l = true) line line where
  exec := rfl
  label := rfl
  catching := rfl
  trace := rfl
  notFresh := by
    intro l hlabel
    unfold methodMachine at hlabel
    simp only at hlabel
    split at hlabel <;> simp_all [Line.isKept]
  jumps := by
    intro c l c' hexec
    simp [execLine_jump h hexec]
  handles := by
    intro start stop handler hcatch
    unfold methodMachine at hcatch
    simp only at hcatch
    split at hcatch <;> simp_all [Line.isKept]

theorem same_goto {wide : Bool} {l : Label} (h : isBr l = false) :
    LabelledCode.Same (methodMachine env) (fun l => isBr l = true) (.instr (.goto wide l))
      (.instr (.goto true l)) where
  exec := rfl
  label := rfl
  catching := rfl
  trace := rfl
  notFresh := by simp [methodMachine]
  jumps := by
    intro c l' c' hexec
    cases hexec
    simp [h]
  handles := by simp [methodMachine]

/-- What `ifne` and `ifeq` test. -/
def testValue (c : Config) : Option (Bool × Config) :=
  match c.stack with
  | .int v :: s => some (v != 0#32, { c with stack := s })
  | _ => none

theorem invertedTest_ifne {l : Label} (h : isBr l = false) (id : ℕ) :
    LabelledCode.InvertedTest (methodMachine env) (fun l => isBr l = true) l (.br id) testValue
      (.instr (.ifne l)) (.instr (.ifeq (.br id))) (.instr (.goto true l))
      (.instr (.label (.br id))) where
  target := by simp [h]
  fresh := rfl
  test := by
    intro c o
    simp only [methodMachine, execLine, testValue, step]
    rcases c.stack with _ | ⟨v, s⟩
    · simp [stepOutcome]
    cases v with
    | int v =>
        by_cases hv : v = 0#32
        · simpa [hv, stepOutcome] using eq_comm
        · simpa [hv, stepOutcome] using eq_comm
    | _ => simp [stepOutcome]
  inverse := by
    intro c o
    simp only [methodMachine, execLine, testValue, step]
    rcases c.stack with _ | ⟨v, s⟩
    · simp [stepOutcome]
    cases v with
    | int v =>
        by_cases hv : v = 0#32
        · simpa [hv, stepOutcome] using eq_comm
        · simpa [hv, stepOutcome] using eq_comm
    | _ => simp [stepOutcome]
  goto := by
    intro c o
    simp [methodMachine, execLine, step, stepOutcome, eq_comm]
  fall := by
    intro c o
    simp [methodMachine, execLine, step, stepOutcome, eq_comm]
  silent := ⟨⟨rfl, rfl, rfl⟩, ⟨rfl, rfl, rfl⟩, ⟨rfl, rfl, rfl⟩⟩
  label := rfl
  catching := rfl
  trace := rfl

theorem Rewritten.inverts (h : Rewritten ls ls') :
    LabelledCode.Inverts (methodMachine env) (fun l => isBr l = true) ls ls' := by
  induction h with
  | nil => exact .nil
  | keep hkept hrest ih => exact .keep (same_of_isKept hkept) ih
  | goto hl hrest ih => exact .keep (same_goto hl) ih
  | ifne hl hrest ih => exact .test (invertedTest_ifne hl _) ih

end rewritten

/-! ## Methods -/

section method

theorem GenerationOpts.ofSwitches_rewriting (useKrakatau wideGotos wideLdc : Bool) :
    ofSwitches useKrakatau true wideGotos wideLdc =
      (ofSwitches useKrakatau false wideGotos wideLdc).rewriting := by
  simp [ofSwitches, rewriting]

/-- A method is printed with `-B` exactly if it is printed without, and cannot be told apart. -/
theorem printFunction_rewriting_equivalent {ρ : Type} (env : LineEnv ρ)
    (useKrakatau wideGotos wideLdc skip : Bool) (f : FunctionDef)
    (curBasicblockMapId maxOperands : ℕ) (w w' : Writer) (hf : f.WellFormed)
    (hw : w'.Reachable (.ofSwitches useKrakatau true wideGotos wideLdc)) (hsame : w.SameBut w') :
    Option.Rel (fun p p' => (methodMachine env).Equivalent p.1.lines p'.1.lines ∧
        p.2.SameBut p'.2)
      (printFunction (.ofSwitches useKrakatau false wideGotos wideLdc) skip f curBasicblockMapId
        maxOperands w)
      (printFunction (.ofSwitches useKrakatau true wideGotos wideLdc) skip f curBasicblockMapId
        maxOperands w') := by
  rw [GenerationOpts.ofSwitches_rewriting] at hw ⊢
  generalize hopts : GenerationOpts.ofSwitches useKrakatau false wideGotos wideLdc = opts at hw ⊢
  have hrewrite : opts.rewriteBranches = false := by
    rw [← hopts]
    rfl
  have hrel := related_printFunction hrewrite skip f curBasicblockMapId maxOperands hsame
  cases hprint : printFunction opts.rewriting skip f curBasicblockMapId maxOperands w' with
  | none =>
      rw [hprint] at hrel
      generalize printFunction opts skip f curBasicblockMapId maxOperands w = p at hrel ⊢
      cases hrel
      exact .none
  | some p' =>
      rw [hprint] at hrel
      generalize printFunction opts skip f curBasicblockMapId maxOperands w = p at hrel ⊢
      cases hrel with
      | some h =>
          obtain ⟨vaArgNum, w₁, w₂, hparts, -, -⟩ := printFunction_parts hf hw.ready.2 hprint
          have hnodup : ((methodMachine env).labels p'.1.lines).Nodup := by
            rw [labels_methodMachine]
            exact hparts.nodup
          exact .some ⟨(h.1.lines.inverts).equivalent hnodup, h.2⟩

/-- A branch on the argument, to a block with a PHI node or to one without. -/
def choiceFunction : FunctionDef where
  ref := ⟨"f", ⟨[.int .w1], false, none⟩, false⟩
  hasLocalLinkage := false
  args := [⟨0, .int .w1⟩]
  blocks := [⟨0, "", [], [⟨none, .br (.conditional 0 (.var ⟨0, .int .w1⟩) 1 2)⟩]⟩,
    ⟨1, "", [⟨⟨1, .int .w32⟩, [(0, .const (.int .w32 7#32))]⟩], [⟨none, .ret none⟩]⟩,
    ⟨2, "", [], [⟨none, .ret none⟩]⟩]
  loopInfo := .empty

theorem choiceFunction_wellFormed : choiceFunction.WellFormed := by
  have hlocals : choiceFunction.locals = [⟨0, .int .w1⟩, ⟨1, .int .w32⟩] := rfl
  refine .of_blocks (LoopInfo.wellFormed_empty _) (by simp [choiceFunction])
    (by simp [choiceFunction]) (by simp [hlocals]) ?_ ?_
  · rw [hlocals]
    simp [choiceFunction, Value.In]
  · simp only [FunctionDef.accepts_iff, hlocals]
    simp [choiceFunction, Operation.operands, BranchInst.condition, Operation.successors,
      BranchInst.successors, Operation.register, Operation.swapParameter, Value.In]

/-- Nothing is called, and `return` leaves the method. -/
def returnEnv : LineEnv Unit where
  toEnv := .plain
  call _ _ _ := False
  simple inst _ x := inst = "return" ∧ x = .leave ()

theorem printFunction_rewriting_equivalent_choice : ∃ p p',
    printFunction (.ofSwitches false false false false) false choiceFunction 0 2 .start = some p ∧
    printFunction (.ofSwitches false true false false) false choiceFunction 0 2 .start = some p' ∧
    p'.1.lines.length = p.1.lines.length + 2 ∧
    (methodMachine returnEnv).Equivalent p.1.lines p'.1.lines := by
  have hrel := printFunction_rewriting_equivalent returnEnv false false false false choiceFunction
    0 2 .start .start choiceFunction_wellFormed (.start rfl rfl) ⟨0, rfl⟩
  have hprint : printFunction (.ofSwitches false false false false) false choiceFunction 0 2
      .start = some (_, _) := rfl
  have hprint' : printFunction (.ofSwitches false true false false) false choiceFunction 0 2
      .start = some (_, _) := rfl
  rw [hprint, hprint'] at hrel
  cases hrel with
  | some h => exact ⟨_, _, hprint, hprint', rfl, h.1⟩

end method

end Llxvm.Backend
