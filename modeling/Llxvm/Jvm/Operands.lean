import Llxvm.Jvm.Machine

/-!
# Code that works on the top of the operand stack

`Acts env code args r`: wherever the values `args` are on top of the stack, the code
consumes them and leaves the value `r`, whatever the locals, the memory and the rest of
the stack are.  The loads of constants and the computations on loaded operands are of
this kind.
-/

namespace Llxvm.Jvm

open Llxvm.Runtime

/-- A value, an exception, or code that does not verify. -/
abbrev Delivery := Option (Except Throwable Val)

def Delivery.andThen (r : Delivery) (f : Val → Delivery) : Delivery :=
  match r with
  | some (.ok v) => f v
  | some (.error e) => some (.error e)
  | none => none

/-- The exit of code that leaves one value above the stack of `c`. -/
def Exit.Delivers (x : Exit) (c : Config) : Delivery → Prop
  | some (.ok v) => x = .fall (c.push v)
  | some (.error e) => ∃ c', x = .throw e c'
  | none => x = .stuck

def Acts (env : Env) (code : Code) (args : List Val) (r : Delivery) : Prop :=
  ∀ c : Config, (run env code none { c with stack := args ++ c.stack }).Delivers c r

variable {env : Env}

theorem acts_of_step {i : Instr} {args : List Val} {r : Delivery}
    (h : ∀ c : Config, step env i { c with stack := args ++ c.stack } =
      Config.produce { c with stack := args ++ c.stack } c.stack r) : Acts env [i] args r := by
  intro c
  simp only [run, h c]
  rcases r with - | (e | v)
  · rfl
  · exact ⟨_, rfl⟩
  · rfl

theorem Acts.nil (v : Val) : Acts env [] [v] (some (.ok v)) := fun _ => rfl

theorem Acts.append {code₁ code₂ : Code} {args below : List Val} {r : Delivery}
    {f : Val → Delivery} (h₁ : Acts env code₁ args r)
    (h₂ : ∀ v, r = some (.ok v) → Acts env code₂ (v :: below) (f v)) :
    Acts env (code₁ ++ code₂) (args ++ below) (r.andThen f) := by
  intro c
  have h := h₁ { c with stack := below ++ c.stack }
  simp only at h
  rw [run_append, List.append_assoc]
  match r, h, h₂ with
  | some (.ok v), h, h₂ =>
      simp only [Exit.Delivers, Config.push] at h
      rw [h]
      exact h₂ v rfl c
  | some (.error e), ⟨c', h⟩, _ =>
      rw [h]
      exact ⟨c', rfl⟩
  | none, h, _ =>
      simp only [Exit.Delivers] at h
      rw [h]
      rfl

theorem Acts.append_ok {code₁ code₂ : Code} {args below : List Val} {v : Val} {r : Delivery}
    (h₁ : Acts env code₁ args (some (.ok v))) (h₂ : Acts env code₂ (v :: below) r) :
    Acts env (code₁ ++ code₂) (args ++ below) r := by
  intro c
  have h : run env code₁ none { c with stack := args ++ (below ++ c.stack) } =
      .fall { c with stack := v :: (below ++ c.stack) } := h₁ { c with stack := below ++ c.stack }
  rw [List.append_assoc, run_append, h]
  exact h₂ c

/-! ## Single instructions -/

theorem acts_const (p : Prefix) (n : ℤ) : Acts env [.const p n] [] ((constant p n).map .ok) :=
  acts_of_step fun _ => rfl

theorem acts_bipush (n : ℤ) :
    Acts env [.bipush n] [] (some (.ok (.int ((BitVec.ofInt 8 n).signExtend 32)))) :=
  acts_of_step fun _ => rfl

theorem acts_sipush (n : ℤ) :
    Acts env [.sipush n] [] (some (.ok (.int ((BitVec.ofInt 16 n).signExtend 32)))) :=
  acts_of_step fun _ => rfl

theorem acts_ldc (text : Literal) : Acts env [.ldc text] [] ((ldcValue env text).map .ok) :=
  acts_of_step fun _ => rfl

theorem acts_ldc2_w (text : Literal) :
    Acts env [.ldc2_w text] [] ((ldc2Value env text).map .ok) :=
  acts_of_step fun _ => rfl

theorem acts_classForMethod (m : MethodName) :
    Acts env [.classForMethod m] [] (some (.ok (.ref (.className (.classForMethod m))))) :=
  acts_of_step fun _ => rfl

theorem acts_getstatic (f : FieldRef) :
    Acts env [.getstatic f] [] ((fieldValue env f).map .ok) :=
  acts_of_step fun _ => rfl

theorem acts_arith (p : Prefix) (op : ArithOp) (a b : Val) :
    Acts env [.arith p op] [b, a] (arith env p op a b) :=
  acts_of_step fun _ => rfl

theorem acts_conv (src dest : Prefix) (v : Val) :
    Acts env [.conv src dest] [v] ((conv env src dest v).map .ok) :=
  acts_of_step fun _ => rfl

/-- The methods of `invokePure`. -/
def MethodRef.isPure : MethodRef → Bool
  | .udiv _ => true
  | .urem _ => true
  | .zext _ _ => true
  | .icmp _ _ => true
  | .fcmp _ _ => true
  | .float _ => true
  | .getFunctionPointer => true
  | _ => false

theorem invokeMemory_of_isPure {m : MethodRef} (h : m.isPure) (args : List Val) :
    invokeMemory env m args = none := by
  cases m <;> first | rfl | simp [MethodRef.isPure] at h

theorem acts_invoke {m : MethodRef} (hpure : m.isPure) {args : List Val}
    (hlen : args.length = m.arity) :
    Acts env [.invokestatic m] args (invokePure env m args.reverse) := by
  intro c
  have hinvoke : invoke env m ((args ++ c.stack).take m.arity).reverse =
      (invokePure env m args.reverse).map fun r => return some (← liftExcept r) := by
    rw [← hlen, List.take_left, invoke, invokeMemory_of_isPure hpure, Option.or_none]
  have hdrop : (args ++ c.stack).drop m.arity = c.stack := by rw [← hlen, List.drop_left]
  simp only [run, step, hinvoke, hdrop]
  rcases hr : invokePure env m args.reverse with - | (e | v)
  · rfl
  · exact ⟨_, rfl⟩
  · rfl

/-! ## Sequences of unary instructions -/

/-- Conversions, and calls of pure methods with one argument. -/
def Instr.isUnary : Instr → Bool
  | .conv _ _ => true
  | .invokestatic m => m.isPure && m.arity == 1
  | _ => false

def unaryStep (env : Env) (i : Instr) (v : Val) : Delivery :=
  match i with
  | .conv src dest => (conv env src dest v).map .ok
  | .invokestatic m => invokePure env m [v]
  | _ => none

/-- The value that a sequence of unary instructions makes of its operand. -/
def unaryCode (env : Env) : Code → Val → Delivery
  | [], v => some (.ok v)
  | i :: is, v => (unaryStep env i v).andThen (unaryCode env is)

theorem acts_unaryStep {i : Instr} (h : i.isUnary) (v : Val) :
    Acts env [i] [v] (unaryStep env i v) := by
  cases i <;> simp only [Instr.isUnary, Bool.false_eq_true, Bool.and_eq_true, beq_iff_eq] at h
  case conv src dest => exact acts_conv src dest v
  case invokestatic m => exact acts_invoke h.1 (by simp [h.2])

theorem acts_unaryCode {code : Code} (h : ∀ i ∈ code, i.isUnary) (v : Val) :
    Acts env code [v] (unaryCode env code v) := by
  induction code generalizing v with
  | nil => exact .nil v
  | cons i is ih =>
      have hboth : Acts env ([i] ++ is) ([v] ++ [])
          ((unaryStep env i v).andThen (unaryCode env is)) :=
        (acts_unaryStep (h i (by simp)) v).append fun v' _ => ih (fun j hj => h j (by simp [hj])) v'
      exact hboth

/-! ## Pushes -/

/-- The instructions that push a value. -/
def Instr.isPush : Instr → Bool
  | .const _ _ => true
  | .bipush _ => true
  | .sipush _ => true
  | .ldc _ => true
  | .ldc2_w _ => true
  | .classForMethod _ => true
  | .getstatic _ => true
  | _ => false

theorem acts_push {i : Instr} (h : i.isPush) : ∃ r, Acts env [i] [] r := by
  cases i <;> simp only [Instr.isPush, Bool.false_eq_true] at h
  case const p n => exact ⟨_, acts_const p n⟩
  case bipush n => exact ⟨_, acts_bipush n⟩
  case sipush n => exact ⟨_, acts_sipush n⟩
  case ldc text => exact ⟨_, acts_ldc text⟩
  case ldc2_w text => exact ⟨_, acts_ldc2_w text⟩
  case classForMethod m => exact ⟨_, acts_classForMethod m⟩
  case getstatic f => exact ⟨_, acts_getstatic f⟩

/-- Two pieces that leave one value each, whatever it is, also do so in sequence. -/
theorem acts_append_exists {code₁ code₂ : Code} {args below : List Val}
    (h₁ : ∃ r, Acts env code₁ args r) (h₂ : ∀ v, ∃ r, Acts env code₂ (v :: below) r) :
    ∃ r, Acts env (code₁ ++ code₂) (args ++ below) r := by
  obtain ⟨r, h₁⟩ := h₁
  choose f h₂ using h₂
  exact ⟨_, h₁.append fun v _ => h₂ v⟩

/-! ## Selection -/

/-- The value that a conditional piece selects. -/
def selected (trueVal falseVal : Delivery) : Val → Delivery
  | .int b => if b = 0#32 then falseVal else trueVal
  | _ => none

/-- Two alternatives behind a test for zero, with a label before the second one and one at
the end. -/
theorem acts_select {cond t f : Code} {rc rt rf : Delivery} {second done : Label} (wide : Bool)
    (hc : Acts env cond [] rc) (ht : Acts env t [] rt) (hf : Acts env f [] rf)
    (hsecond : .label second ∉ t) (hdone : .label done ∉ f) (hne : second ≠ done) :
    Acts env (cond ++ ([.ifeq second] ++ (t ++ ([.goto wide done] ++ ([.label second] ++
      (f ++ [.label done])))))) [] (rc.andThen (selected rt rf)) := by
  have hend : ∀ {r : Delivery} {x : Exit} {c : Config}, x.Delivers c r →
      (x.andThen env [.label done]).Delivers c r := by
    intro r x c hx
    match r, hx with
    | some (.ok v), hx => rw [hx]; rfl
    | some (.error e), ⟨c', hx⟩ => rw [hx]; exact ⟨c', rfl⟩
    | none, hx => rw [hx]; rfl
  -- after the first alternative the second one is jumped over
  have hover : ∀ {x : Exit} {c : Config}, x.Delivers c rt →
      (x.andThen env
        ([.goto wide done] ++ ([.label second] ++ (f ++ [.label done])))).Delivers c rt := by
    intro x c hx
    match rt, hx with
    | some (.ok v), hx =>
        have hskip : run env ([.label second] ++ f) (some done) (c.push v) =
            .jump done (c.push v) := run_skip (by simp [hdone, hne.symm]) _
        rw [hx, ← List.append_assoc [Instr.label second]]
        change (run env (([.label second] ++ f) ++ [.label done]) (some done)
          (c.push v)).Delivers c _
        rw [run_append, hskip]
        change (run env [.label done] (some done) (c.push v)).Delivers c _
        rw [run, if_pos rfl]
        rfl
    | some (.error e), ⟨c', hx⟩ => rw [hx]; exact ⟨c', rfl⟩
    | none, hx => rw [hx]; rfl
  have hrest : ∀ v, Acts env ([.ifeq second] ++ (t ++ ([.goto wide done] ++ ([.label second] ++
      (f ++ [.label done]))))) [v] (selected rt rf v) := by
    intro v c
    cases v with
    | int b =>
        by_cases hb : b = 0#32
        · have hjump : run env [.ifeq second] none { c with stack := [.int b] ++ c.stack } =
              .jump second c := by simp [run, step, hb]
          have hskip : run env (t ++ [.goto wide done]) (some second) c = .jump second c :=
            run_skip (by simp [hsecond]) c
          rw [run_append, hjump, ← List.append_assoc t]
          change (run env _ (some second) c).Delivers c _
          rw [run_append, hskip]
          change (run env _ (some second) c).Delivers c _
          rw [List.cons_append, run, if_pos rfl, List.nil_append, run_append, selected, if_pos hb]
          exact hend (hf c)
        · have hfall : run env [.ifeq second] none { c with stack := [.int b] ++ c.stack } =
              .fall c := by simp [run, step, hb]
          rw [run_append_of_fall hfall, run_append, selected, if_neg hb]
          exact hover (ht c)
    | long b => rfl
    | float b => rfl
    | double b => rfl
    | ref b => rfl
  exact hc.append fun v _ => hrest v

/-! ## Calls that use the memory -/

/-- The exit after a call that returns an address in place of its arguments. -/
def ExitsAs (x : Exit) (c : Config) (s : List Val) :
    EStateM.Result Throwable Memory (BitVec 32) → Prop
  | .ok r m => x = .fall { c with stack := .int r :: s, memory := m }
  | .error e m => ∃ c', x = .throw e c' ∧ c'.memory = m

theorem run_invoke {m : MethodRef} {args : List Val} {call : MemM (BitVec 32)}
    (h : invoke env m args = some (do return some (.int (← call)))) (hlen : args.length = m.arity)
    (c : Config) (s : List Val) :
    ExitsAs (run env [.invokestatic m] none { c with stack := args.reverse ++ s }) c s
      (call c.memory) := by
  have htake : ((args.reverse ++ s).take m.arity).reverse = args := by
    rw [← hlen, ← List.length_reverse, List.take_left, List.reverse_reverse]
  have hdrop : (args.reverse ++ s).drop m.arity = s := by
    rw [← hlen, ← List.length_reverse, List.drop_left]
  simp only [run, step, htake, h, hdrop, bind, EStateM.bind]
  cases call c.memory with
  | ok r m => rfl
  | error e m => exact ⟨_, rfl, rfl⟩

theorem invoke_pack (env : Env) {d : TypeID} (addr : BitVec 32) {x : Val} {a : Prim}
    (h : argument d x = some a) :
    invoke env (.pack d) [.int addr, x] = some (do return some (.int (← Memory.pack addr a))) := by
  have hpure : invokePure env (.pack d) [.int addr, x] = none := by
    unfold invokePure
    rfl
  have hmemory : invokeMemory env (.pack d) [.int addr, x] =
      (argument d x).bind fun v => some do return some (.int (← Memory.pack addr v)) := by
    unfold invokeMemory
    rfl
  rw [invoke, hpure, hmemory, h]
  rfl

end Llxvm.Jvm
