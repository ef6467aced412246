import Llxvm.Runtime.FloatCompare
import Llxvm.Runtime.Instruction
import Llxvm.Runtime.Pack

/-!
# The JVM instructions of translated code

A piece of emitted code runs on a frame of local variables and an operand stack over
the paged memory.  Jumps inside a piece are forwards; a jump to a label that does not
follow leaves the piece.  A step that the class verifier would refuse is `stuck`.
Floating point arithmetic, the reading of literals and linked classes are parameters, which
`Env` collects.
-/

namespace Llxvm.Jvm

open Llxvm.Runtime

/-! ## Values -/

/-- Letters of type descriptors. -/
inductive TypeID where
  | V | Z | B | S | I | J | F | D
  deriving DecidableEq

/-- First letters of mnemonics. -/
inductive Prefix where
  | a | b | s | i | l | f | d
  deriving DecidableEq

/-- The name and descriptor of a method of a translated class. -/
structure MethodName where
  name : String
  params : List TypeID
  ret : TypeID
  deriving DecidableEq

/-- A class, as the writer names it: its own, or the one the linker finds for a method. -/
inductive ClassName where
  | self
  | classForMethod (m : MethodName)
  deriving DecidableEq

inductive Ref where
  | className (c : ClassName)
  | methodName (m : MethodName)
  | string (chars : List (BitVec 16))
  | charArray (chars : List (BitVec 16))
  | jump (id value : BitVec 32)
  deriving DecidableEq

inductive Val where
  | int (value : BitVec 32)
  | long (value : BitVec 64)
  | float (bits : BitVec 32)
  | double (bits : BitVec 64)
  | ref (value : Ref)
  deriving DecidableEq

namespace Val

/-- The letter of the load and store instructions for a value. -/
def letter : Val → Prefix
  | int _ => .i
  | long _ => .l
  | float _ => .f
  | double _ => .d
  | ref _ => .a

/-- Values that take two local variables. -/
def isWide : Val → Bool
  | long _ => true
  | double _ => true
  | _ => false

end Val

/-! ## Instructions -/

inductive ArithOp where
  | add | sub | mul | div | rem | and | or | xor | shl | ushr | shr
  deriving DecidableEq

/-- Operations on floating point values. -/
inductive FloatOp where
  | arith (p : Prefix) (op : ArithOp)
  | conv (src dest : Prefix)
  | uitofp (dest src : TypeID)
  | fptoui (dest src : TypeID)
  | bitcast (dest src : TypeID)
  deriving DecidableEq

/-- The static methods that emitted code calls. -/
inductive MethodRef where
  | allocateStack
  | allocateData
  | createStackFrame
  | destroyStackFrame
  | load (d : TypeID)
  | store (d : TypeID)
  | pack (d : TypeID)
  | packString
  | packChars
  | zero
  | udiv (d : TypeID)
  | urem (d : TypeID)
  | zext (dest src : TypeID)
  | icmp (pred : Instruction.Predicate) (d : TypeID)
  | fcmp (pred : Instruction.FloatPredicate) (d : TypeID)
  | float (op : FloatOp)
  | getFunctionPointer
  deriving DecidableEq

inductive Label where
  | block (id : ℕ)
  | phi (block uid : ℕ)
  | select (uid : ℕ) (second : Bool)
  | br (id : ℕ)
  | setjmp (var : ℕ)
  | beginMethod
  | catchJump
  | endMethod
  deriving DecidableEq

/-- The texts after `ldc` and `ldc2_w`.  A floating point literal is the value that was
formatted, a string literal the bytes between the quotes. -/
inductive Literal where
  | int (n : ℤ)
  | long (n : ℤ)
  | float (bits : BitVec 32)
  | double (bits : BitVec 64)
  | className (c : ClassName)
  | methodName (m : MethodName)
  | string (text : List (BitVec 8))
  deriving DecidableEq

/-- How the number of a local variable is written. -/
inductive Form where
  | short | plain | wide
  deriving DecidableEq

inductive FieldRef where
  | global (name : String) (c : Option ClassName)
  | nan (p : Prefix)
  | infinity (p : Prefix) (negative : Bool)
  deriving DecidableEq

inductive JumpField where
  | id | value
  deriving DecidableEq

inductive Instr where
  | const (p : Prefix) (n : ℤ)
  | bipush (n : ℤ)
  | sipush (n : ℤ)
  | ldc (text : Literal)
  | ldc2_w (text : Literal)
  | classForMethod (m : MethodName)
  | load (p : Prefix) (form : Form) (var : ℕ)
  | store (p : Prefix) (form : Form) (var : ℕ)
  | arith (p : Prefix) (op : ArithOp)
  | conv (src dest : Prefix)
  | pop
  | dup
  | swap
  | invokestatic (m : MethodRef)
  | toCharArray
  | getstatic (f : FieldRef)
  | getfield (f : JumpField)
  | athrow
  | goto (wide : Bool) (target : Label)
  | ifne (target : Label)
  | ifeq (target : Label)
  | if_icmpeq (target : Label)
  | label (l : Label)
  deriving DecidableEq

abbrev Code := List Instr

/-! ## The environment -/

/-- What the emitted code relies on and is not computed here. -/
structure Env where
  /-- Operations on raw bits, `none` on operands of the wrong kinds: those of the JVM, and the
  conversions of unsigned integers, which `Instruction.uitofpF64Long` and others give for exact
  values. -/
  float : FloatOp → List Val → Option Val
  /-- The `float` that the assembler reads from a literal. -/
  readFloat : Literal → BitVec 32
  readDouble : Literal → BitVec 64
  /-- The characters that the assembler reads between two quotes. -/
  readString : List (BitVec 8) → List (BitVec 16)
  /-- `String.getBytes`. -/
  getBytes : List (BitVec 16) → List (BitVec 8)
  /-- What `Function.getFunctionPointer` returns for a function that has a pointer.  The first call
  for a function allocates data for one, or throws. -/
  functionPointer : ClassName → MethodName → BitVec 32
  /-- The address in the static field of a global variable. -/
  address : String → BitVec 32

/-- An environment without floating point, for code over ASCII text. -/
def Env.plain : Env where
  float _ _ := none
  readFloat _ := 0#32
  readDouble _ := 0#64
  readString text := text.map (BitVec.setWidth 16)
  getBytes chars := chars.map (BitVec.setWidth 8)
  functionPointer _ _ := 0x100#32
  address _ := 0x200#32

/-! ## Semantics -/

/-- Local variables; the second half of a wide value cannot be read. -/
abbrev Locals := ℕ → Option Val

def Locals.set (locals : Locals) (n : ℕ) (v : Val) : Locals := fun k =>
  if k = n then some v
  else if v.isWide ∧ k = n + 1 then none
  else if k + 1 = n ∧ (locals k).any Val.isWide then none
  else locals k

structure Config where
  locals : Locals
  stack : List Val
  memory : Memory

/-- The result of one instruction. -/
inductive Outcome where
  | next (c : Config)
  | jump (target : Label) (c : Config)
  | throw (e : Throwable) (c : Config)
  | stuck

/-- The result of a piece of code: it runs to its end, or jumps out of it. -/
inductive Exit where
  | fall (c : Config)
  | jump (target : Label) (c : Config)
  | throw (e : Throwable) (c : Config)
  | stuck

section semantics

variable (env : Env)

/-- The operations on equal operands of one word. -/
def wordArith {w : ℕ} (op : ArithOp) (a b : BitVec w) : Option (Except Throwable (BitVec w)) :=
  match op with
  | .add => some (.ok (a + b))
  | .sub => some (.ok (a - b))
  | .mul => some (.ok (a * b))
  | .div => some (javaDiv a b)
  | .rem => some (javaRem a b)
  | .and => some (.ok (a &&& b))
  | .or => some (.ok (a ||| b))
  | .xor => some (.ok (a ^^^ b))
  | .shl => none
  | .ushr => none
  | .shr => none

/-- The shifts, by the low bits of an `int`. -/
def wordShift {w : ℕ} (op : ArithOp) (a : BitVec w) (s : BitVec 32) : Option (BitVec w) :=
  match op with
  | .shl => some (a <<< (s.toNat % w))
  | .ushr => some (a >>> (s.toNat % w))
  | .shr => some (a.sshiftRight (s.toNat % w))
  | _ => none

def arith (p : Prefix) (op : ArithOp) (a b : Val) : Option (Except Throwable Val) :=
  match p, a, b with
  | .i, .int a, .int b =>
      ((wordShift op a b).map (.ok ∘ .int)).or ((wordArith op a b).map (·.map .int))
  | .l, .long a, .int b => (wordShift op a b).map (.ok ∘ .long)
  | .l, .long a, .long b => (wordArith op a b).map (·.map .long)
  | .f, .float _, .float _ => (env.float (.arith .f op) [a, b]).map .ok
  | .d, .double _, .double _ => (env.float (.arith .d op) [a, b]).map .ok
  | _, _, _ => none

def conv (src dest : Prefix) (v : Val) : Option Val :=
  match src, dest, v with
  | .i, .b, .int v => some (.int ((v.setWidth 8).signExtend 32))
  | .i, .s, .int v => some (.int ((v.setWidth 16).signExtend 32))
  | .i, .l, .int v => some (.long (v.signExtend 64))
  | .l, .i, .long v => some (.int (v.setWidth 32))
  | .i, .f, .int _ | .i, .d, .int _ | .l, .f, .long _ | .l, .d, .long _
  | .f, .i, .float _ | .f, .l, .float _ | .f, .d, .float _
  | .d, .i, .double _ | .d, .l, .double _ | .d, .f, .double _ => env.float (.conv src dest) [v]
  | _, _, _ => none

/-- The constants of `iconst`, `lconst`, `fconst` and `dconst`. -/
def constant (p : Prefix) (n : ℤ) : Option Val :=
  match p, n with
  | .i, n => some (.int (BitVec.ofInt 32 n))
  | .l, n => some (.long (BitVec.ofInt 64 n))
  | .f, 0 => some (.float 0#32)
  | .f, 1 => some (.float 0x3f800000#32)
  | .f, 2 => some (.float 0x40000000#32)
  | .d, 0 => some (.double 0#64)
  | .d, 1 => some (.double 0x3ff0000000000000#64)
  | _, _ => none

/-- `ldc` pushes a value of one word. -/
def ldcValue : Literal → Option Val
  | .int n => some (.int (BitVec.ofInt 32 n))
  | .long _ => none
  | .float bits => some (.float (env.readFloat (.float bits)))
  | .double bits => some (.float (env.readFloat (.double bits)))
  | .className c => some (.ref (.className c))
  | .methodName m => some (.ref (.methodName m))
  | .string text => some (.ref (.string (env.readString text)))

/-- `ldc2_w` pushes a value of two words. -/
def ldc2Value : Literal → Option Val
  | .int n => some (.long (BitVec.ofInt 64 n))
  | .long n => some (.long (BitVec.ofInt 64 n))
  | .float bits => some (.double (env.readDouble (.float bits)))
  | .double bits => some (.double (env.readDouble (.double bits)))
  | _ => none

def fieldValue : FieldRef → Option Val
  | .global name _ => some (.int (env.address name))
  | .nan .f => some (.float 0x7fc00000#32)
  | .nan .d => some (.double 0x7ff8000000000000#64)
  | .infinity .f neg => some (.float (if neg then 0xff800000#32 else 0x7f800000#32))
  | .infinity .d neg =>
      some (.double (if neg then 0xfff0000000000000#64 else 0x7ff0000000000000#64))
  | _ => none

/-- An argument of a Java method: `boolean`, `byte` and `short` travel as `int`. -/
def argument : TypeID → Val → Option Prim
  | .Z, .int v => some (.boolean (v != 0#32))
  | .B, .int v => some (.byte (v.setWidth 8))
  | .S, .int v => some (.short (v.setWidth 16))
  | .I, .int v => some (.int v)
  | .J, .long v => some (.long v)
  | .F, .float v => some (.float v)
  | .D, .double v => some (.double v)
  | _, _ => none

/-- The result of a Java method on the operand stack. -/
def result : Prim → Val
  | .boolean v => .int (if v then 1#32 else 0#32)
  | .byte v => .int (v.signExtend 32)
  | .short v => .int (v.signExtend 32)
  | .int v => .int v
  | .long v => .long v
  | .float v => .float v
  | .double v => .double v

def primType : TypeID → Option PrimType
  | .V => none
  | .Z => some .boolean
  | .B => some .byte
  | .S => some .short
  | .I => some .int
  | .J => some .long
  | .F => some .float
  | .D => some .double

def liftExcept {α : Type} (x : Except Throwable α) : MemM α :=
  match x with
  | .ok a => pure a
  | .error e => throw e

def divide (d : TypeID) (a b : Prim) : Option (Except Throwable Prim) :=
  match d, a, b with
  | .B, .byte a, .byte b => some ((Instruction.udivByte a b).map .byte)
  | .S, .short a, .short b => some ((Instruction.udivShort a b).map .short)
  | .I, .int a, .int b => some ((Instruction.udivInt a b).map .int)
  | .J, .long a, .long b => some ((Instruction.udivLong a b).map .long)
  | _, _, _ => none

def remainder (d : TypeID) (a b : Prim) : Option (Except Throwable Prim) :=
  match d, a, b with
  | .B, .byte a, .byte b => some ((Instruction.uremByte a b).map .byte)
  | .S, .short a, .short b => some ((Instruction.uremShort a b).map .short)
  | .I, .int a, .int b => some ((Instruction.uremInt a b).map .int)
  | .J, .long a, .long b => some ((Instruction.uremLong a b).map .long)
  | _, _, _ => none

/-- The overloads of `zext_i32` and `zext_i64`. -/
def zeroExtend (dest : TypeID) (v : Prim) : Option Prim :=
  match dest, v with
  | .I, .boolean v => some (.int (Instruction.zextI32Boolean v))
  | .I, .byte v => some (.int (Instruction.zextI32Byte v))
  | .I, .short v => some (.int (Instruction.zextI32Short v))
  | .J, .boolean v => some (.long (Instruction.zextI64Boolean v))
  | .J, .byte v => some (.long (Instruction.zextI64Byte v))
  | .J, .short v => some (.long (Instruction.zextI64Short v))
  | .J, .int v => some (.long (Instruction.zextI64Int v))
  | _, _ => none

def compare (pred : Instruction.Predicate) (a b : Prim) : Option Prim :=
  match a, b with
  | .int a, .int b => some (.boolean (Instruction.icmp pred a b))
  | .long a, .long b => some (.boolean (Instruction.icmp pred a b))
  | _, _ => none

/-- The overloads of `fcmp_*`. -/
def compareFloat (pred : Instruction.FloatPredicate) (a b : Prim) : Option Prim :=
  match a, b with
  | .float a, .float b => some (.boolean (Instruction.fcmp .single pred a b))
  | .double a, .double b => some (.boolean (Instruction.fcmp .double pred a b))
  | _, _ => none

/-- The methods that do not touch the memory. -/
def invokePure (m : MethodRef) (args : List Val) : Option (Except Throwable Val) :=
  match m, args with
  | .udiv d, [a, b] => do (← divide d (← argument d a) (← argument d b)).map result
  | .urem d, [a, b] => do (← remainder d (← argument d a) (← argument d b)).map result
  | .zext dest src, [a] => do return .ok (result (← zeroExtend dest (← argument src a)))
  | .icmp pred d, [a, b] => do
      return .ok (result (← compare pred (← argument d a) (← argument d b)))
  | .fcmp pred d, [a, b] => do
      return .ok (result (← compareFloat pred (← argument d a) (← argument d b)))
  | .float op, args => (env.float op args).map .ok
  | .getFunctionPointer, [.ref (.className c), .ref (.methodName m)] =>
      some (.ok (.int (env.functionPointer c m)))
  | _, _ => none

/-- The methods over the memory; `none` is a method without result. -/
def invokeMemory (m : MethodRef) (args : List Val) : Option (MemM (Option Val)) :=
  match m, args with
  | .allocateStack, [.int n] => some do return some (.int (← Memory.allocateStack n))
  | .allocateData, [.int n] => some do return some (.int (← Memory.allocateData n))
  | .createStackFrame, [] => some do Memory.createStackFrame; return none
  | .destroyStackFrame, [] => some do Memory.destroyStackFrame; return none
  | .load d, [.int addr] => do
      let t ← primType d
      return do return some (result (← Memory.load addr t))
  | .store d, [.int addr, v] => do
      let v ← argument d v
      return do Memory.store addr v; return none
  | .pack d, [.int addr, v] => do
      let v ← argument d v
      return do return some (.int (← Memory.pack addr v))
  | .packString, [.int addr, .ref (.string chars)] =>
      some do return some (.int (← Memory.packString addr (env.getBytes chars)))
  | .packChars, [.int addr, .ref (.charArray chars)] =>
      some do return some (.int (← Memory.packChars addr chars))
  | .zero, [.int addr, .int len] => some do return some (.int (← Memory.zero addr len))
  | _, _ => none

def MethodRef.arity : MethodRef → ℕ
  | allocateStack => 1
  | allocateData => 1
  | createStackFrame => 0
  | destroyStackFrame => 0
  | load _ => 1
  | store _ => 2
  | pack _ => 2
  | packString => 2
  | packChars => 2
  | zero => 2
  | udiv _ => 2
  | urem _ => 2
  | zext _ _ => 1
  | icmp _ _ => 2
  | fcmp _ _ => 2
  | float (.arith _ _) => 2
  | float (.conv _ _) => 1
  | float (.uitofp _ _) => 1
  | float (.fptoui _ _) => 1
  | float (.bitcast _ _) => 1
  | getFunctionPointer => 2

def invoke (m : MethodRef) (args : List Val) : Option (MemM (Option Val)) :=
  ((invokePure env m args).map fun r => return some (← liftExcept r)).or (invokeMemory env m args)

namespace Config

def push (c : Config) (v : Val) : Config := { c with stack := v :: c.stack }

/-- The outcome of an instruction that replaces the top of the stack. -/
def produce (c : Config) (rest : List Val) : Option (Except Throwable Val) → Outcome
  | some (.ok v) => .next { c with stack := v :: rest }
  | some (.error e) => .throw e c
  | none => .stuck

end Config

def step (i : Instr) (c : Config) : Outcome :=
  match i, c.stack with
  | .const p n, s => c.produce s ((constant p n).map .ok)
  | .bipush n, s => c.produce s (some (.ok (.int ((BitVec.ofInt 8 n).signExtend 32))))
  | .sipush n, s => c.produce s (some (.ok (.int ((BitVec.ofInt 16 n).signExtend 32))))
  | .ldc text, s => c.produce s ((ldcValue env text).map .ok)
  | .ldc2_w text, s => c.produce s ((ldc2Value env text).map .ok)
  | .classForMethod m, s => c.produce s (some (.ok (.ref (.className (.classForMethod m)))))
  | .load p _ n, s =>
      match c.locals n with
      | some v => if v.letter = p then .next { c with stack := v :: s } else .stuck
      | none => .stuck
  | .store p _ n, v :: s =>
      if v.letter = p then .next { c with locals := c.locals.set n v, stack := s } else .stuck
  | .arith p op, b :: a :: s => c.produce s (arith env p op a b)
  | .conv src dest, v :: s => c.produce s ((conv env src dest v).map .ok)
  | .pop, v :: s => if v.isWide then .stuck else .next { c with stack := s }
  | .dup, v :: s => if v.isWide then .stuck else .next { c with stack := v :: v :: s }
  | .swap, b :: a :: s =>
      if a.isWide ∨ b.isWide then .stuck else .next { c with stack := a :: b :: s }
  | .invokestatic m, s =>
      match invoke env m (s.take m.arity).reverse with
      | none => .stuck
      | some call =>
          match call c.memory with
          | .ok r memory =>
              .next { c with stack := r.toList ++ s.drop m.arity, memory := memory }
          | .error e memory => .throw e { c with memory := memory }
  | .toCharArray, .ref (.string chars) :: s =>
      .next { c with stack := .ref (.charArray chars) :: s }
  | .getstatic f, s => c.produce s ((fieldValue env f).map .ok)
  | .getfield .id, .ref (.jump id _) :: s => .next { c with stack := .int id :: s }
  | .getfield .value, .ref (.jump _ value) :: s => .next { c with stack := .int value :: s }
  | .athrow, .ref (.jump id value) :: _ => .throw (.jump id value) c
  | .goto _ l, _ => .jump l c
  | .ifne l, .int v :: s =>
      if v = 0#32 then .next { c with stack := s } else .jump l { c with stack := s }
  | .ifeq l, .int v :: s =>
      if v = 0#32 then .jump l { c with stack := s } else .next { c with stack := s }
  | .if_icmpeq l, .int b :: .int a :: s =>
      if a = b then .jump l { c with stack := s } else .next { c with stack := s }
  | .label _, _ => .next c
  | _, _ => .stuck

/-- Run a piece of code, or skip to a label in it. -/
def run : Code → Option Label → Config → Exit
  | [], none, c => .fall c
  | [], some l, c => .jump l c
  | i :: is, none, c =>
      match step env i c with
      | .next c => run is none c
      | .jump l c => run is (some l) c
      | .throw e c => .throw e c
      | .stuck => .stuck
  | i :: is, some l, c => run is (if i = .label l then none else some l) c

end semantics

/-! ## Composition -/

section composition

variable {env : Env}

/-- Continue with a piece of code that follows. -/
def Exit.andThen (env : Env) (x : Exit) (code : Code) : Exit :=
  match x with
  | .fall c => run env code none c
  | .jump l c => run env code (some l) c
  | .throw e c => .throw e c
  | .stuck => .stuck

theorem run_append (code₁ code₂ : Code) (l : Option Label) (c : Config) :
    run env (code₁ ++ code₂) l c = (run env code₁ l c).andThen env code₂ := by
  induction code₁ generalizing l c with
  | nil => cases l <;> rfl
  | cons i is ih =>
      cases l with
      | none =>
          simp only [List.cons_append, run]
          cases step env i c with
          | next c' => exact ih none c'
          | jump l c' => exact ih (some l) c'
          | throw e c' => rfl
          | stuck => rfl
      | some l => exact ih _ c

theorem run_append_of_fall {code₁ code₂ : Code} {l : Option Label} {c c' : Config}
    (h : run env code₁ l c = .fall c') :
    run env (code₁ ++ code₂) l c = run env code₂ none c' := by
  rw [run_append, h]
  rfl

/-- Code that defines no label with the given name is skipped. -/
theorem run_skip {code : Code} {l : Label} (h : .label l ∉ code) (c : Config) :
    run env code (some l) c = .jump l c := by
  induction code with
  | nil => rfl
  | cons i is ih =>
      rw [List.mem_cons, not_or] at h
      rw [run, if_neg (Ne.symm h.1)]
      exact ih h.2

end composition

namespace Locals

variable (locals : Locals) (n : ℕ) (v : Val)

@[simp] theorem set_self : locals.set n v n = some v := by simp [Locals.set]

theorem set_of_ne {k : ℕ} (hk : k ≠ n) (hnext : v.isWide → k ≠ n + 1)
    (hprev : (locals k).any Val.isWide → k + 1 ≠ n) : locals.set n v k = locals k := by
  unfold Locals.set
  rw [if_neg hk, if_neg fun h => hnext h.1 h.2, if_neg fun h => hprev h.2 h.1]

end Locals

end Llxvm.Jvm
