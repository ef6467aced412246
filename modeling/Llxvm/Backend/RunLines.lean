import Llxvm.Backend.Method

/-!
# Runs of lines

The lines of a method that are not JVM instructions with a meaning of their own: calls of
library methods by their texts, and the `lookupswitch`.
-/

namespace Llxvm.Backend

open Llxvm.Jvm Llxvm.Runtime

/-! ## Library methods -/

/-- The methods that the printed lines call by their texts. -/
inductive LibraryMethod where
  | math (fn : MathFunction)
  | bswap (d : TypeID)
  | smax (d : TypeID)
  deriving DecidableEq

namespace LibraryMethod

def text : LibraryMethod → String
  | math fn => "invokestatic java/lang/Math/" ++ fn.text
  | bswap d => "invokestatic llxvm/runtime/Instruction/" ++
    ("bswap(" ++ typeText d ++ ")" ++ typeText d)
  | smax d => "invokestatic llxvm/runtime/Instruction/" ++
      ("smax(" ++ typeText d ++ typeText d ++ ")" ++ typeText d)

/-- The overloads that exist. -/
def all : List LibraryMethod :=
  [math .exp, math .log, math .log10, math .sqrt, math .pow, bswap .S, bswap .I, bswap .J,
    smax .B, smax .S, smax .I, smax .J]

def named (text : String) : Option LibraryMethod := all.find? fun m => m.text = text

end LibraryMethod

/-- The arguments that a function of `java.lang.Math` takes. -/
def MathFunction.arity : MathFunction → ℕ
  | pow => 2
  | _ => 1

/-- The bits of some `double` values. -/
def doubles : List Val → Option (List (BitVec 64))
  | [] => some []
  | .double x :: vs => (doubles vs).map (x :: ·)
  | _ => none

def swapBytes : Prim → Option Prim
  | .short v => some (.short (Instruction.bswapShort v))
  | .int v => some (.int (Instruction.bswapInt v))
  | .long v => some (.long (Instruction.bswapLong v))
  | _ => none

def maximum : Prim → Prim → Option Prim
  | .byte a, .byte b => some (.byte (Instruction.smaxBy 32 a b))
  | .short a, .short b => some (.short (Instruction.smaxBy 32 a b))
  | .int a, .int b => some (.int (Instruction.smaxBy 32 a b))
  | .long a, .long b => some (.long (Instruction.smaxBy 64 a b))
  | _, _ => none

theorem LibraryMethod.named_text :
    ∀ m ∈ LibraryMethod.all, LibraryMethod.named m.text = some m := by
  decide +kernel

/-- The label that a `lookupswitch` goes to; the keys are 32 bit literals. -/
def switchTarget (cases : List (ℤ × Label)) (default : Label) (v : BitVec 32) : Label :=
  ((cases.find? fun c => BitVec.ofInt 32 c.1 = v).map Prod.snd).getD default

section semantics

variable (env : Env) (math : MathFunction → List (BitVec 64) → BitVec 64)

/-- A call replaces the arguments on the stack, the last of which is on top. -/
def callLibrary (m : LibraryMethod) (stack : List Val) : Option (List Val) :=
  match m, stack with
  | .math fn, stack => do
      let xs ← doubles (stack.take fn.arity).reverse
      if xs.length = fn.arity then return .double (math fn xs) :: stack.drop fn.arity else none
  | .bswap d, a :: s => do return result (← swapBytes (← argument d a)) :: s
  | .smax d, b :: a :: s => do return result (← maximum (← argument d a) (← argument d b)) :: s
  | _, _ => none

/-- Run lines, or skip to a label in them.  Calls of translated methods have no meaning here. -/
def runLines : List Line → Option Label → Config → Exit
  | [], none, c => .fall c
  | [], some l, c => .jump l c
  | .instr i :: ls, none, c =>
      match step env i c with
      | .next c => runLines ls none c
      | .jump l c => runLines ls (some l) c
      | .throw e c => .throw e c
      | .stuck => .stuck
  | .instr i :: ls, some l, c => runLines ls (if i = .label l then none else some l) c
  | .simple text :: ls, none, c =>
      match (LibraryMethod.named text).bind fun m => callLibrary math m c.stack with
      | some stack => runLines ls none { c with stack }
      | none => .stuck
  | .lookupswitch cases default :: ls, none, c =>
      match c.stack with
      | .int v :: s => runLines ls (some (switchTarget cases default v)) { c with stack := s }
      | _ => .stuck
  | .call _ :: _, none, _ => .stuck
  | .catching _ _ _ :: ls, none, c => runLines ls none c
  | _ :: ls, some l, c => runLines ls (some l) c

variable {env math}

theorem runLines_code_append (is : Code) (ls : List Line) (l : Option Label) (c : Config) :
    runLines env math (lines is ++ ls) l c =
      match run env is l c with
      | .fall c => runLines env math ls none c
      | .jump l c => runLines env math ls (some l) c
      | .throw e c => .throw e c
      | .stuck => .stuck := by
  induction is generalizing l c with
  | nil => cases l <;> rfl
  | cons i is ih =>
      cases l with
      | none =>
          simp only [lines, List.map_cons, List.cons_append, runLines, run]
          cases step env i c with
          | next c' => exact ih none c'
          | jump l c' => exact ih (some l) c'
          | throw e c' => rfl
          | stuck => rfl
      | some l => exact ih _ c

theorem runLines_append_of_fall {is : Code} {ls : List Line} {c c' : Config}
    (h : run env is none c = .fall c') :
    runLines env math (lines is ++ ls) none c = runLines env math ls none c' := by
  rw [runLines_code_append, h]

theorem runLines_append_of_stuck {is : Code} {ls : List Line} {c : Config}
    (h : run env is none c = .stuck) : runLines env math (lines is ++ ls) none c = .stuck := by
  rw [runLines_code_append, h]

theorem runLines_simple {m : LibraryMethod} (hm : m ∈ LibraryMethod.all) (ls : List Line) :
    runLines env math (.simple m.text :: ls) none c =
      match callLibrary math m c.stack with
      | some stack => runLines env math ls none { c with stack }
      | none => .stuck := by
  simp only [runLines, LibraryMethod.named_text m hm, Option.bind_some]

end semantics

end Llxvm.Backend
