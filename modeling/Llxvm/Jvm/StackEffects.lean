import Llxvm.Jvm.Machine

/-!
# The stack effects of the JVM instructions

What an instruction takes from the operand stack and leaves on it, by the categories of the values:
a `long` or a `double` is one entry, which takes two words.  Entries of one category are not told
apart.
-/

namespace Llxvm.Jvm

open Llxvm.Runtime

/-- The categories of the values on the operand stack, by their words. -/
inductive Category where
  | one | two
  deriving DecidableEq

def TypeID.category : TypeID → Category
  | J => .two
  | D => .two
  | _ => .one

def Prefix.category : Prefix → Category
  | l => .two
  | d => .two
  | _ => .one

def Val.category (v : Val) : Category := if v.isWide then .two else .one

@[simp] theorem Val.category_int (n : BitVec 32) : (Val.int n).category = .one := rfl

@[simp] theorem Val.category_ref (r : Ref) : (Val.ref r).category = .one := rfl

theorem Val.category_letter (v : Val) : v.letter.category = v.category := by
  cases v <;> rfl

def Config.categories (c : Config) : List Category := c.stack.map Val.category

/-! ## Effects -/

def ArithOp.isShift : ArithOp → Bool
  | shl => true
  | ushr => true
  | shr => true
  | _ => false

/-- The operands of `arith`; a shift is by an `int`. -/
def arithParams (p : Prefix) (op : ArithOp) : List Category :=
  [p.category, if op.isShift then .one else p.category]

def FloatOp.params : FloatOp → List Category
  | arith p op => arithParams p op
  | conv src _ => [src.category]
  | uitofp _ src => [src.category]
  | fptoui _ src => [src.category]
  | bitcast _ src => [src.category]

def FloatOp.result : FloatOp → Category
  | arith p _ => p.category
  | conv _ dest => dest.category
  | uitofp dest _ => dest.category
  | fptoui dest _ => dest.category
  | bitcast dest _ => dest.category

namespace MethodRef

/-- The parameters of a method, the first one first. -/
def params : MethodRef → List Category
  | allocateStack => [.one]
  | allocateData => [.one]
  | createStackFrame => []
  | destroyStackFrame => []
  | load _ => [.one]
  | store d => [.one, d.category]
  | pack d => [.one, d.category]
  | packString => [.one, .one]
  | packChars => [.one, .one]
  | zero => [.one, .one]
  | udiv d => [d.category, d.category]
  | urem d => [d.category, d.category]
  | zext _ src => [src.category]
  | icmp _ d => [d.category, d.category]
  | fcmp _ d => [d.category, d.category]
  | float op => op.params
  | getFunctionPointer => [.one, .one]

def results : MethodRef → List Category
  | createStackFrame => []
  | destroyStackFrame => []
  | store _ => []
  | load d => [d.category]
  | udiv d => [d.category]
  | urem d => [d.category]
  | zext dest _ => [dest.category]
  | float op => [op.result]
  | _ => [.one]

end MethodRef

def FieldRef.category : FieldRef → Category
  | nan p => p.category
  | infinity p _ => p.category
  | global _ _ => .one

namespace Instr

/-- The operands, the top of the stack first. -/
def pops : Instr → List Category
  | store p _ _ => [p.category]
  | arith p op => (arithParams p op).reverse
  | conv src _ => [src.category]
  | pop => [.one]
  | dup => [.one]
  | swap => [.one, .one]
  | invokestatic m => m.params.reverse
  | toCharArray => [.one]
  | getfield _ => [.one]
  | athrow => [.one]
  | ifne _ => [.one]
  | ifeq _ => [.one]
  | if_icmpeq _ => [.one, .one]
  | _ => []

def pushes : Instr → List Category
  | const p _ => [p.category]
  | bipush _ => [.one]
  | sipush _ => [.one]
  | ldc _ => [.one]
  | ldc2_w _ => [.two]
  | classForMethod _ => [.one]
  | load p _ _ => [p.category]
  | arith p _ => [p.category]
  | conv _ dest => [dest.category]
  | dup => [.one, .one]
  | swap => [.one, .one]
  | invokestatic m => m.results
  | toCharArray => [.one]
  | getstatic f => [f.category]
  | getfield _ => [.one]
  | _ => []

/-- Control may go on to the next instruction. -/
def falls : Instr → Bool
  | athrow => false
  | goto _ _ => false
  | _ => true

def jumps : Instr → List Label
  | goto _ l => [l]
  | ifne l => [l]
  | ifeq l => [l]
  | if_icmpeq l => [l]
  | _ => []

/-- No label, and control only goes on to the next instruction. -/
def isStraight : Instr → Bool
  | label _ => false
  | goto _ _ => false
  | ifne _ => false
  | ifeq _ => false
  | if_icmpeq _ => false
  | athrow => false
  | _ => true

end Instr

/-- The operations on floating point values take and give values of their types. -/
def Env.KeepsCategories (env : Env) : Prop :=
  ∀ op args v, env.float op args = some v →
    args.map Val.category = op.params ∧ v.category = op.result

/-! ## Values -/

theorem category_of_argument {d : TypeID} {v : Val} {x : Prim} (h : argument d v = some x) :
    v.category = d.category ∧ (result x).category = d.category := by
  cases d <;> cases v <;> cases h <;> exact ⟨rfl, rfl⟩

theorem category_constant {p : Prefix} {n : ℤ} {v : Val} (h : constant p n = some v) :
    v.category = p.category := by
  unfold constant at h
  split at h <;> cases h <;> rfl

theorem category_ldcValue {env : Env} {text : Literal} {v : Val} (h : ldcValue env text = some v) :
    v.category = .one := by
  cases text <;> cases h <;> rfl

theorem category_ldc2Value {env : Env} {text : Literal} {v : Val}
    (h : ldc2Value env text = some v) : v.category = .two := by
  cases text <;> cases h <;> rfl

theorem category_fieldValue {env : Env} {f : FieldRef} {v : Val} (h : fieldValue env f = some v) :
    v.category = f.category := by
  unfold fieldValue at h
  split at h <;> cases h <;> rfl

theorem exists_of_map_eq_ok {ε α β : Type} {f : α → β} {x : Except ε α} {b : β}
    (h : x.map f = .ok b) : ∃ a, b = f a := by
  cases x with
  | error e => cases h
  | ok a =>
      cases h
      exact ⟨a, rfl⟩

theorem exists_of_wordArith {w : ℕ} {op : ArithOp} {a b : BitVec w} {f : BitVec w → Val} {v : Val}
    (h : (wordArith op a b).map (·.map f) = some (.ok v)) :
    op.isShift = false ∧ ∃ x, v = f x := by
  obtain ⟨r, hr, hv⟩ := Option.map_eq_some_iff.mp h
  refine ⟨?_, exists_of_map_eq_ok hv⟩
  cases op <;> first | rfl | cases hr

theorem exists_of_wordShift {w : ℕ} {op : ArithOp} {a : BitVec w} {b : BitVec 32}
    {f : BitVec w → Val} {v : Val} (h : (wordShift op a b).map (.ok ∘ f) =
      some (.ok v : Except Throwable Val)) : op.isShift = true ∧ ∃ x, v = f x := by
  obtain ⟨r, hr, hv⟩ := Option.map_eq_some_iff.mp h
  cases hv
  refine ⟨?_, r, rfl⟩
  cases op <;> first | rfl | cases hr

theorem exists_of_map_map {ε α β γ : Type} {f : α → β} {g : β → γ} {x : Except ε α} {c : γ}
    (h : (x.map f).map g = .ok c) : ∃ a, c = g (f a) := by
  cases x with
  | error e => cases h
  | ok a =>
      cases h
      exact ⟨a, rfl⟩

theorem category_divide {d : TypeID} {a b : Prim} {x : Except Throwable Prim}
    (h : divide d a b = some x) {v : Val} (hv : x.map result = .ok v) :
    v.category = d.category := by
  unfold divide at h
  split at h
  case h_5 => cases h
  all_goals
    cases h
    obtain ⟨z, rfl⟩ := exists_of_map_map hv
    rfl

theorem category_remainder {d : TypeID} {a b : Prim} {x : Except Throwable Prim}
    (h : remainder d a b = some x) {v : Val} (hv : x.map result = .ok v) :
    v.category = d.category := by
  unfold remainder at h
  split at h
  case h_5 => cases h
  all_goals
    cases h
    obtain ⟨z, rfl⟩ := exists_of_map_map hv
    rfl

theorem category_zeroExtend {dest : TypeID} {v x : Prim} (h : zeroExtend dest v = some x) :
    (result x).category = dest.category := by
  unfold zeroExtend at h
  split at h <;> cases h <;> rfl

theorem category_compare {pred : Instruction.Predicate} {a b x : Prim}
    (h : compare pred a b = some x) : (result x).category = .one := by
  unfold compare at h
  split at h <;> cases h <;> rfl

theorem category_compareFloat {pred : Instruction.FloatPredicate} {a b x : Prim}
    (h : compareFloat pred a b = some x) : (result x).category = .one := by
  unfold compareFloat at h
  split at h <;> cases h <;> rfl

section computations

variable {env : Env} (henv : env.KeepsCategories)

include henv

theorem category_arith {p : Prefix} {op : ArithOp} {a b v : Val}
    (h : arith env p op a b = some (.ok v)) :
    [a, b].map Val.category = arithParams p op ∧ v.category = p.category := by
  have hfloat : ∀ {q : Prefix}, (env.float (.arith q op) [a, b]).map Except.ok =
      some (Except.ok v : Except Throwable Val) →
      [a, b].map Val.category = arithParams q op ∧ v.category = q.category := by
    intro q hq
    obtain ⟨r, hr, heq⟩ := Option.map_eq_some_iff.mp hq
    cases heq
    exact henv _ _ v hr
  unfold arith at h
  split at h
  · next x y =>
      have hv : ∃ z : BitVec 32, v = .int z := by
        rcases Option.or_eq_some_iff.mp h with hshift | ⟨-, hword⟩
        · exact (exists_of_wordShift hshift).2
        · exact (exists_of_wordArith hword).2
      obtain ⟨z, rfl⟩ := hv
      exact ⟨by simp [arithParams, Val.category, Val.isWide, Prefix.category], rfl⟩
  · obtain ⟨hshift, z, rfl⟩ := exists_of_wordShift h
    exact ⟨by simp [arithParams, hshift, Val.category, Val.isWide, Prefix.category], rfl⟩
  · obtain ⟨hshift, z, rfl⟩ := exists_of_wordArith h
    exact ⟨by simp [arithParams, hshift, Val.category, Val.isWide, Prefix.category], rfl⟩
  · exact hfloat h
  · exact hfloat h
  · cases h

theorem category_conv {src dest : Prefix} {v x : Val} (h : conv env src dest v = some x) :
    v.category = src.category ∧ x.category = dest.category := by
  unfold conv at h
  split at h
  case h_15 => cases h
  case h_1 | h_2 | h_3 | h_4 =>
      cases h
      exact ⟨rfl, rfl⟩
  all_goals
    obtain ⟨-, hresult⟩ := henv _ _ x h
    exact ⟨rfl, hresult⟩

theorem invokePure_categories {m : MethodRef} {args : List Val} {v : Val}
    (h : invokePure env m args = some (.ok v)) :
    args.map Val.category = m.params ∧ m.results = [v.category] := by
  unfold invokePure at h
  split at h
  case h_1 d a b | h_2 d a b =>
      obtain ⟨x, hx, h⟩ := Option.bind_eq_some_iff.mp h
      obtain ⟨y, hy, h⟩ := Option.bind_eq_some_iff.mp h
      obtain ⟨z, hz, h⟩ := Option.bind_eq_some_iff.mp h
      have hargs : [a, b].map Val.category = [d.category, d.category] := by
        simp [category_of_argument hx, category_of_argument hy]
      refine ⟨hargs, ?_⟩
      first
      | rw [category_divide hz (Option.some.inj h)]
      | rw [category_remainder hz (Option.some.inj h)]
      rfl
  case h_3 d src a =>
      obtain ⟨x, hx, h⟩ := Option.bind_eq_some_iff.mp h
      obtain ⟨y, hy, h⟩ := Option.bind_eq_some_iff.mp h
      cases h
      refine ⟨by simp [category_of_argument hx, MethodRef.params], ?_⟩
      rw [category_zeroExtend hy]
      rfl
  case h_4 pred d a b | h_5 pred d a b =>
      obtain ⟨x, hx, h⟩ := Option.bind_eq_some_iff.mp h
      obtain ⟨y, hy, h⟩ := Option.bind_eq_some_iff.mp h
      obtain ⟨z, hz, h⟩ := Option.bind_eq_some_iff.mp h
      cases h
      have hargs : [a, b].map Val.category = [d.category, d.category] := by
        simp [category_of_argument hx, category_of_argument hy]
      refine ⟨hargs, ?_⟩
      first
      | rw [category_compare hz]
      | rw [category_compareFloat hz]
      rfl
  case h_6 op =>
      obtain ⟨x, hx, h⟩ := Option.map_eq_some_iff.mp h
      cases h
      obtain ⟨hargs, hresult⟩ := henv _ _ _ hx
      exact ⟨hargs, by rw [hresult]; rfl⟩
  case h_7 =>
      cases h
      exact ⟨rfl, rfl⟩
  case h_8 => cases h

end computations

section calls

variable {env : Env} {memory memory' : Memory}

theorem exists_of_return {α β : Type} {x : MemM α} {f : α → β} {r : β}
    (h : (do return f (← x)) memory = .ok r memory') : ∃ a, x memory = .ok a memory' ∧ r = f a := by
  simp only [bind, EStateM.bind] at h
  split at h
  · next a memory₁ ha =>
      cases h
      exact ⟨a, ha, rfl⟩
  · cases h

/-- The values of a primitive type have one category. -/
theorem category_load {d : TypeID} {t : PrimType} (ht : primType d = some t) {addr : BitVec 32}
    {x : Prim} (h : Memory.load addr t memory = .ok x memory') :
    (result x).category = d.category := by
  cases d <;> cases ht <;>
  · obtain ⟨a, -, rfl⟩ := exists_of_return h
    rfl

theorem invokeMemory_categories {m : MethodRef} {args : List Val} {call : MemM (Option Val)}
    (h : invokeMemory env m args = some call) {r : Option Val}
    (hcall : call memory = .ok r memory') :
    args.map Val.category = m.params ∧ r.toList.map Val.category = m.results := by
  have hreturn : ∀ {α : Type} {x : MemM α} {f : α → Option Val},
      some (do return f (← x)) = some call → ∃ a, r = f a := by
    intro α x f heq
    rw [← Option.some.inj heq] at hcall
    obtain ⟨a, -, ha⟩ := exists_of_return hcall
    exact ⟨a, ha⟩
  cases m with
  | allocateStack =>
      match args, h with
      | [.int n], h =>
          obtain ⟨a, rfl⟩ := hreturn h
          exact ⟨rfl, rfl⟩
  | allocateData =>
      match args, h with
      | [.int n], h =>
          obtain ⟨a, rfl⟩ := hreturn h
          exact ⟨rfl, rfl⟩
  | createStackFrame =>
      match args, h with
      | [], h =>
          obtain ⟨a, rfl⟩ := hreturn h
          exact ⟨rfl, rfl⟩
  | destroyStackFrame =>
      match args, h with
      | [], h =>
          obtain ⟨a, rfl⟩ := hreturn h
          exact ⟨rfl, rfl⟩
  | load d =>
      match args, h with
      | [.int addr], h =>
          obtain ⟨t, ht, hload⟩ := Option.bind_eq_some_iff.mp h
          cases hload
          obtain ⟨x, hx, rfl⟩ := exists_of_return hcall
          exact ⟨rfl, by simp [category_load ht hx, MethodRef.results]⟩
  | store d =>
      match args, h with
      | [.int addr, v], h =>
          obtain ⟨x, hx, hstore⟩ := Option.bind_eq_some_iff.mp h
          obtain ⟨a, rfl⟩ := hreturn hstore
          exact ⟨by simp [(category_of_argument hx).1, MethodRef.params], rfl⟩
  | pack d =>
      match args, h with
      | [.int addr, v], h =>
          obtain ⟨x, hx, hpack⟩ := Option.bind_eq_some_iff.mp h
          obtain ⟨a, rfl⟩ := hreturn hpack
          exact ⟨by simp [(category_of_argument hx).1, MethodRef.params], rfl⟩
  | packString =>
      rcases args with _ | ⟨x, _ | ⟨y, _ | ⟨z, args⟩⟩⟩
      · cases h
      · cases x <;> cases h
      · rcases x with addr | _ | _ | _ | _ <;> try cases h
        rcases y with _ | _ | _ | _ | v <;> try cases h
        rcases v with _ | _ | chars | _ | _ <;> cases h
        obtain ⟨a, rfl⟩ := hreturn rfl
        exact ⟨rfl, rfl⟩
      · rcases x with addr | _ | _ | _ | _ <;> try cases h
        rcases y with _ | _ | _ | _ | v <;> try cases h
        rcases v with _ | _ | chars | _ | _ <;> cases h
  | packChars =>
      rcases args with _ | ⟨x, _ | ⟨y, _ | ⟨z, args⟩⟩⟩
      · cases h
      · cases x <;> cases h
      · rcases x with addr | _ | _ | _ | _ <;> try cases h
        rcases y with _ | _ | _ | _ | v <;> try cases h
        rcases v with _ | _ | _ | chars | _ <;> cases h
        obtain ⟨a, rfl⟩ := hreturn rfl
        exact ⟨rfl, rfl⟩
      · rcases x with addr | _ | _ | _ | _ <;> try cases h
        rcases y with _ | _ | _ | _ | v <;> try cases h
        rcases v with _ | _ | _ | chars | _ <;> cases h
  | zero =>
      rcases args with _ | ⟨x, _ | ⟨y, _ | ⟨z, args⟩⟩⟩
      · cases h
      · cases x <;> cases h
      · rcases x with addr | _ | _ | _ | _ <;> try cases h
        rcases y with len | _ | _ | _ | v <;> cases h
        obtain ⟨a, rfl⟩ := hreturn rfl
        exact ⟨rfl, rfl⟩
      · rcases x with addr | _ | _ | _ | _ <;> try cases h
        rcases y with len | _ | _ | _ | v <;> cases h
  | _ => cases h

theorem invoke_categories (henv : env.KeepsCategories) {m : MethodRef} {args : List Val}
    {call : MemM (Option Val)} (h : invoke env m args = some call) {r : Option Val}
    (hcall : call memory = .ok r memory') :
    args.map Val.category = m.params ∧ r.toList.map Val.category = m.results := by
  unfold invoke at h
  cases hpure : invokePure env m args with
  | none =>
      rw [hpure] at h
      exact invokeMemory_categories h hcall
  | some x =>
      rw [hpure] at h
      cases h
      cases x with
      | error e => cases hcall
      | ok v =>
          cases hcall
          obtain ⟨hargs, hresults⟩ := invokePure_categories henv hpure
          exact ⟨hargs, hresults.symm⟩

end calls

/-! ## Steps -/

/-- The instruction falls, and changes the stack as its effect says. -/
def Instr.Changes (i : Instr) (s s' : List Category) : Prop :=
  i.falls = true ∧ ∃ rest, s = i.pops ++ rest ∧ s' = i.pushes ++ rest

section steps

variable {env : Env} {i : Instr} {c c' : Config}

theorem produce_next {rest : List Val} {r : Option (Except Throwable Val)}
    (h : c.produce rest r = .next c')
    (hchanges : ∀ v, r = some (.ok v) → i.Changes c.categories ((v :: rest).map Val.category)) :
    i.Changes c.categories c'.categories := by
  unfold Config.produce at h
  split at h
  · cases h
    exact hchanges _ rfl
  · cases h
  · cases h

theorem produce_ne_jump {rest : List Val} {r : Option (Except Throwable Val)} {l : Label} :
    c.produce rest r ≠ .jump l c' := by
  unfold Config.produce
  split <;> simp

theorem step_next (henv : env.KeepsCategories) (h : step env i c = .next c') :
    i.Changes c.categories c'.categories := by
  have hpush : ∀ {i : Instr} {k : Category} {v : Val}, i.falls = true → i.pops = [] →
      i.pushes = [k] → v.category = k →
      i.Changes c.categories ((v :: c.stack).map Val.category) := by
    intro i k v hfalls hpops hpushes hv
    exact ⟨hfalls, c.categories, by simp [hpops], by simp [hpushes, hv, Config.categories]⟩
  have hconstant : ∀ {i : Instr} {k : Category} {r : Option Val}, i.falls = true → i.pops = [] →
      i.pushes = [k] → (∀ v, r = some v → v.category = k) →
      c.produce c.stack (r.map .ok) = .next c' → i.Changes c.categories c'.categories := by
    intro i k r hfalls hpops hpushes hr hnext
    refine produce_next hnext fun v hv => hpush hfalls hpops hpushes ?_
    obtain ⟨u, hu, heq⟩ := Option.map_eq_some_iff.mp hv
    cases heq
    exact hr _ hu
  unfold step at h
  split at h
  case h_1 p n s => exact hconstant rfl rfl rfl (fun v hv => category_constant hv) h
  case h_2 | h_3 | h_6 =>
      refine produce_next h fun v hv => hpush rfl rfl rfl ?_
      cases hv
      rfl
  case h_4 text s => exact hconstant rfl rfl rfl (fun v hv => category_ldcValue hv) h
  case h_5 text s => exact hconstant rfl rfl rfl (fun v hv => category_ldc2Value hv) h
  case h_16 f s => exact hconstant rfl rfl rfl (fun v hv => category_fieldValue hv) h
  case h_7 p form n s =>
      split at h
      · next v hv =>
          split_ifs at h with hletter
          cases h
          exact hpush rfl rfl rfl (hletter ▸ v.category_letter.symm)
      · cases h
  case h_8 p form n v s hstack =>
      split_ifs at h with hletter
      cases h
      refine ⟨rfl, s.map Val.category, ?_, rfl⟩
      simp [Config.categories, hstack, Instr.pops, ← hletter, v.category_letter]
  case h_9 p op b a s hstack =>
      refine produce_next h fun v hv => ?_
      obtain ⟨hargs, hresult⟩ := category_arith henv hv
      refine ⟨rfl, s.map Val.category, ?_, by simp [Instr.pushes, hresult]⟩
      rw [Config.categories, hstack, Instr.pops, ← hargs]
      rfl
  case h_10 src dest v s hstack =>
      refine produce_next h fun x hx => ?_
      obtain ⟨y, hy, heq⟩ := Option.map_eq_some_iff.mp hx
      cases heq
      obtain ⟨hoperand, hresult⟩ := category_conv henv hy
      refine ⟨rfl, s.map Val.category, ?_, by simp [Instr.pushes, hresult]⟩
      simp [Config.categories, hstack, Instr.pops, hoperand]
  case h_11 v s hstack | h_12 v s hstack =>
      split_ifs at h with hwide
      cases h
      exact ⟨rfl, s.map Val.category, by simp [Config.categories, hstack, Instr.pops, Val.category,
        hwide], by simp [Config.categories, Instr.pushes, Val.category, hwide]⟩
  case h_13 b a s hstack =>
      split_ifs at h with hwide
      rw [not_or] at hwide
      cases h
      exact ⟨rfl, s.map Val.category, by simp [Config.categories, hstack, Instr.pops, Val.category,
        hwide], by simp [Config.categories, Instr.pushes, Val.category, hwide]⟩
  case h_14 _ m =>
      split at h
      · cases h
      · next call hcall =>
          split at h
          · next r memory hr =>
              cases h
              obtain ⟨hargs, hresult⟩ := invoke_categories henv hcall hr
              refine ⟨rfl, (c.stack.drop m.arity).map Val.category, ?_, ?_⟩
              · rw [Instr.pops, ← hargs, ← List.map_reverse, List.reverse_reverse,
                  ← List.map_append, List.take_append_drop]
                rfl
              · rw [Instr.pushes, ← hresult, ← List.map_append]
                rfl
          · cases h
  case h_15 hstack | h_17 hstack | h_18 hstack =>
      cases h
      refine ⟨rfl, (c.stack.tail).map Val.category, ?_, ?_⟩
      · simp [Config.categories, hstack, Instr.pops]
      · simp [Config.categories, hstack, Instr.pushes]
  case h_21 hstack | h_22 hstack | h_23 hstack =>
      split_ifs at h
      cases h
      refine ⟨rfl, _, ?_, rfl⟩
      simp [Config.categories, hstack, Instr.pops]
  case h_24 =>
      cases h
      exact ⟨rfl, c.categories, rfl, rfl⟩
  case h_19 | h_20 | h_25 => cases h

theorem step_jump {l : Label} (h : step env i c = .jump l c') :
    l ∈ i.jumps ∧ ∃ rest, c.categories = i.pops ++ rest ∧ c'.categories = rest := by
  unfold step at h
  split at h
  case h_20 =>
      cases h
      exact ⟨List.mem_singleton_self _, c.categories, rfl, rfl⟩
  case h_21 hstack | h_22 hstack | h_23 hstack =>
      split_ifs at h
      cases h
      exact ⟨List.mem_singleton_self _, _, by simp [Config.categories, hstack, Instr.pops], rfl⟩
  case h_7 =>
      split at h
      · split_ifs at h
      · cases h
  case h_8 | h_11 | h_12 | h_13 => split_ifs at h
  case h_14 =>
      split at h
      · cases h
      · split at h <;> cases h
  case h_15 | h_17 | h_18 | h_19 | h_24 | h_25 => cases h
  all_goals exact (produce_ne_jump h).elim

end steps

end Llxvm.Jvm
