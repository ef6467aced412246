import Llxvm.Backend.InstLabels
import Llxvm.Backend.LlvmOperations

/-!
# Runs of operations

The lines that are printed for an operation, in a method whose local variables hold the values of
the function: they leave the value of the operation on the stack, and the memory as the operation
does.
-/

namespace Llxvm.Backend

open Llxvm.Jvm Llxvm.Runtime DataLayout LittleEndian SignExtend Memory

/-! ## Accesses to the memory -/

section memory

variable {m m' : Memory} {a : BitVec 32} {ty : Ty} {t : PrimType} {x : LlvmVal}

theorem storedFrom_loaded {bs : List (BitVec 8)} (ht : ty.prim = some t)
    (hx : LlvmVal.ofBytes ty bs = some x) :
    x.StoredFrom (result (Prim.ofBytes t bs)) ∧ x.type = ty := by
  have hcases := Ty.prim_cases ht
  simp only [List.mem_cons, List.not_mem_nil, or_false] at hcases
  have hint : ∀ w : IntWidth, ty = .int w →
      leBytes ((w.bits + 7) / 8) (ofLeBytes w.bits bs) = bs ∧ x = .int w (ofLeBytes w.bits bs) := by
    rintro w rfl
    simp only [LlvmVal.ofBytes, LlvmVal.intOfBytes] at hx
    split at hx
    next h => exact ⟨h, (Option.some.inj hx).symm⟩
    next => cases hx
  rcases hcases with rfl | rfl | rfl | rfl | rfl | rfl | rfl | rfl <;> cases ht
  · obtain ⟨hbs, rfl⟩ := hint .w1 rfl
    refine ⟨?_, rfl⟩
    have hbit : ∀ y : BitVec 1, ofLeBytes 8 (leBytes 1 y) = y.setWidth 8 := by decide
    have hbyte : ofLeBytes 8 bs = (ofLeBytes 1 bs).setWidth 8 := by
      rw [← hbit, show leBytes 1 (ofLeBytes 1 bs) = bs from hbs]
    simp only [Prim.ofBytes, result, hbyte]
    rcases BitVec.eq_zero_or_eq_one (ofLeBytes 1 bs) with h | h <;> rw [h] <;> exact ⟨rfl, rfl⟩
  · obtain ⟨-, rfl⟩ := hint .w8 rfl
    exact ⟨storedFrom_int (by simp) (setWidth_signExtend (by decide) _), rfl⟩
  · obtain ⟨-, rfl⟩ := hint .w16 rfl
    exact ⟨storedFrom_int (by simp) (setWidth_signExtend (by decide) _), rfl⟩
  · obtain ⟨-, rfl⟩ := hint .w32 rfl
    exact ⟨storedFrom_int (by simp) (BitVec.setWidth_eq _), rfl⟩
  · obtain ⟨-, rfl⟩ := hint .w64 rfl
    exact ⟨storesAs_long rfl, rfl⟩
  · cases hx
    exact ⟨⟨rfl, rfl⟩, rfl⟩
  · cases hx
    exact ⟨⟨rfl, rfl⟩, rfl⟩
  · cases hx
    exact ⟨⟨rfl, rfl⟩, rfl⟩

theorem forall₂_mapM {α β : Type} {f : α → Option β} {xs : List α} {ys : List β}
    (h : xs.mapM f = some ys) : List.Forall₂ (fun x y => f x = some y) xs ys := by
  induction xs generalizing ys with
  | nil =>
      cases h
      exact .nil
  | cons x xs ih =>
      simp only [List.mapM_cons, Option.pure_def, Option.bind_eq_bind,
        Option.bind_eq_some_iff] at h
      obtain ⟨y, hy, ys', hys, heq⟩ := h
      cases heq
      exact .cons hy (ih hys)

/-- The bytes of an access. -/
theorem holds_of_mapM {n : ℕ} {a : ℕ} {bs : List (BitVec 8)}
    (h : ((List.range n).mapM fun i => m.byte (a + i)) = some bs) :
    bs.length = n ∧ m.Holds a bs := by
  obtain ⟨hlen, hget⟩ := List.forall₂_iff_get.mp (forall₂_mapM h)
  rw [List.length_range] at hlen
  refine ⟨hlen.symm, fun i hi => ?_⟩
  have hbyte := hget i (by rwa [List.length_range, hlen]) hi
  rw [List.getElem?_eq_getElem hi]
  simpa using hbyte

/-- The `load` of the runtime finds the value. -/
theorem load_of_llvmLoad (ht : ty.prim = some t) (h : llvmLoad m a ty = some x) :
    ∃ p, load a t m = .ok p m ∧ x.StoredFrom (result p) ∧ x.type = ty := by
  simp only [llvmLoad, ht, Option.bind_eq_bind, Option.bind_some] at h
  split at h
  next hdvd =>
    obtain ⟨bs, hbs, hx⟩ := Option.bind_eq_some_iff.mp h
    obtain ⟨hlen, hholds⟩ := holds_of_mapM hbs
    have hne : bs ≠ [] := by
      rintro rfl
      have hpos := t.size_pos
      simp only [List.length_nil] at hlen
      omega
    have hload := loadBytes_ok hne hholds (inPage_of_dvd t.size_dvd_pageSize hdvd hlen.le)
    rw [hlen] at hload
    obtain ⟨hstored, hty⟩ := storedFrom_loaded ht hx
    refine ⟨_, ?_, hstored, hty⟩
    rw [load_eq]
    simp only [bind, EStateM.bind, hload]
    rfl
  next => cases h

theorem argument_represent (ht : x.type.prim = some t) :
    ∃ p, argument (getTypeDescriptor x.type false) x.represent = some p ∧ p.type = t ∧
      p.bytes = x.bytes := by
  cases x with
  | int w x =>
      have hcases := Ty.prim_cases ht
      simp only [List.mem_cons, List.not_mem_nil, or_false, LlvmVal.type, Ty.int.injEq,
        reduceCtorEq] at hcases
      rcases hcases with rfl | rfl | rfl | rfl | rfl <;> cases ht
      · refine ⟨.boolean (x.setWidth 32 != 0#32), rfl, rfl, ?_⟩
        rcases BitVec.eq_zero_or_eq_one x with rfl | rfl <;> rfl
      · refine ⟨.byte ((x.signExtend 32).setWidth 8), rfl, rfl, ?_⟩
        rw [setWidth_signExtend (by decide)]
        rfl
      · refine ⟨.short ((x.signExtend 32).setWidth 16), rfl, rfl, ?_⟩
        rw [setWidth_signExtend (by decide)]
        rfl
      · refine ⟨.int (x.signExtend 32), rfl, rfl, ?_⟩
        rw [BitVec.signExtend_eq]
        rfl
      · refine ⟨.long (x.signExtend 64), rfl, rfl, ?_⟩
        rw [BitVec.signExtend_eq]
        rfl
  | float bits =>
      cases ht
      exact ⟨.float bits, rfl, rfl, rfl⟩
  | double bits =>
      cases ht
      exact ⟨.double bits, rfl, rfl, rfl⟩
  | pointer address =>
      cases ht
      exact ⟨.int address, rfl, rfl, rfl⟩

/-- The `store` of the runtime writes the bytes of the value. -/
theorem store_of_llvmStore (h : llvmStore m a x = some m') :
    ∃ p, argument (getTypeDescriptor x.type false) x.represent = some p ∧
      store a p m = .ok () m' := by
  simp only [llvmStore, Option.bind_eq_bind, Option.bind_eq_some_iff] at h
  obtain ⟨t, ht, h⟩ := h
  split at h
  next hok =>
    cases h
    obtain ⟨p, hp, hty, hbytes⟩ := argument_represent ht
    have hlen : p.bytes.length = t.size := by rw [Prim.length_bytes, hty]
    have hpage : InPage a.toNat p.bytes.length :=
      inPage_of_dvd t.size_dvd_pageSize hok.1 hlen.le
    refine ⟨p, hp, ?_⟩
    rw [store_eq, storeBytes_ok hok.2 hpage, hbytes]
  next => cases h

end memory

/-! ## Pushed operands -/

/-- Wherever the code starts with these local variables, it leaves `y` on the stack. -/
def Pushes (env : Env) (locals : Locals) (code : Code) (y : Val) : Prop :=
  ∀ stack m, run env code none ⟨locals, stack, m⟩ = .fall ⟨locals, y :: stack, m⟩

section push

variable {env : Env} {opts : GenerationOpts} {w w₁ w₂ : Writer} {locals : Locals} {v : Value}
  {code is js : Code} {x y z : Val}

/-- The load of an operand, as it was printed. -/
theorem Operand.pushes (h : Operand env opts w locals v y) (hw₁ : Keeping w w₁)
    (hprint : printValueLoad opts v w₁ = some (is, w₂)) :
    Pushes env locals is y ∧ Keeping w w₂ ∧ Emitted w₁ w₂ is := by
  obtain ⟨is', w₂', hprint', hemit, hrun⟩ := h w₁ hw₁.fresh hw₁.localVars hw₁.basicblockMap
  cases hprint.symm.trans hprint'
  exact ⟨fun stack m => hrun ⟨locals, stack, m⟩ rfl, hw₁.emitted hemit, hemit⟩

theorem Pushes.append (h : Pushes env locals is x) (hacts : Acts env code [x] (some (.ok y))) :
    Pushes env locals (is ++ code) y := by
  intro stack m
  rw [run_append_of_fall (h stack m)]
  exact hacts ⟨locals, stack, m⟩

theorem Pushes.append₂ (h : Pushes env locals is x) (h' : Pushes env locals js y)
    (hacts : Acts env code [y, x] (some (.ok z))) : Pushes env locals (is ++ js ++ code) z := by
  intro stack m
  rw [List.append_assoc, run_append_of_fall (h stack m), run_append_of_fall (h' (x :: stack) m)]
  exact hacts ⟨locals, stack, m⟩

/-- One of two alternatives is pushed, the second one if the condition is zero. -/
theorem Pushes.select {cond t e : Code} {b : BitVec 32} {second done : Label} (wide : Bool)
    (hcond : Pushes env locals cond (.int b))
    (hselected : Pushes env locals (if b = 0#32 then e else t) y) (hsecond : .label second ∉ t)
    (hdone : .label done ∉ e) (hne : second ≠ done) :
    Pushes env locals (cond ++ [.ifeq second] ++ t ++ [.goto wide done] ++ [.label second] ++ e ++
      [.label done]) y := by
  intro stack m
  have hend : ∀ c, run env [.label done] (some done) c = .fall c := fun c => by simp [run]
  simp only [List.append_assoc]
  rw [run_append_of_fall (hcond stack m)]
  by_cases hb : b = 0#32
  · rw [if_pos hb] at hselected
    have hjump : run env [.ifeq second] none ⟨locals, .int b :: stack, m⟩ =
        .jump second ⟨locals, stack, m⟩ := by simp [run, step, hb]
    rw [run_append, hjump]
    change run env _ (some second) _ = _
    rw [run_append, run_skip hsecond]
    change run env (.goto wide done :: .label second :: (e ++ [.label done])) (some second) _ = _
    rw [run, if_neg (by simp), run, if_pos rfl, run_append_of_fall (hselected stack m)]
    rfl
  · rw [if_neg hb] at hselected
    have hfall : run env [.ifeq second] none ⟨locals, .int b :: stack, m⟩ =
        .fall ⟨locals, stack, m⟩ := by simp [run, step, hb]
    rw [run_append_of_fall hfall, run_append_of_fall (hselected stack m)]
    change run env (.label second :: (e ++ [.label done])) (some done) _ = _
    rw [run, if_neg (by simpa using hne), run_append, run_skip hdone]
    exact hend _

end push

theorem run_invokestatic {env : Env} {mr : MethodRef} (args : List Val)
    {call : MemM (Option Val)} {r : Option Val} {m m' : Memory}
    (hinvoke : invoke env mr args.reverse = some call)
    (hlen : args.length = mr.arity) (hcall : call m = .ok r m') (locals : Locals)
    (stack : List Val) : run env [.invokestatic mr] none ⟨locals, args ++ stack, m⟩ =
      .fall ⟨locals, r.toList ++ stack, m'⟩ := by
  have htake : (args ++ stack).take mr.arity = args := by rw [← hlen, List.take_left]
  have hdrop : (args ++ stack).drop mr.arity = stack := by rw [← hlen, List.drop_left]
  simp only [run, step, htake, hdrop, hinvoke, hcall]

theorem invoke_load {env : Env} (a : BitVec 32) {d : TypeID} {t : PrimType}
    (hd : primType d = some t) :
    invoke env (.load d) [.int a] = some (do return some (result (← load a t))) := by
  have hpure : invokePure env (.load d) [.int a] = none := rfl
  have hmemory : invokeMemory env (.load d) [.int a] =
      (primType d).bind fun t => some (do return some (result (← load a t))) := rfl
  rw [invoke, hpure, hmemory, hd]
  rfl

theorem invoke_store {env : Env} (a : BitVec 32) {d : TypeID} {v : Val} {p : Prim}
    (hp : argument d v = some p) :
    invoke env (.store d) [.int a, v] = some (do store a p; return none) := by
  have hpure : invokePure env (.store d) [.int a, v] = none := rfl
  have hmemory : invokeMemory env (.store d) [.int a, v] =
      (argument d v).bind fun p => some (do store a p; return none) := rfl
  rw [invoke, hpure, hmemory, hp]
  rfl

/-! ## Conditions -/

section conditions

variable {env : Env} {opts : GenerationOpts} {vars : List Local} {w : Writer} {values : Values}
  {locals : Locals} {v : Value}

/-- A condition is loaded as an `int` that is zero if it is false. -/
theorem operand_of_bit (hldc : opts.wideLdc = false) (held : values.Held vars w locals)
    (hin : v.In vars) (hstorable : v.Storable env) {b : Bool}
    (hb : llvmBit env values v = some b) :
    ∃ y : BitVec 32, Operand env opts w locals v (.int y) ∧ (y = 0#32 ↔ b = false) := by
  simp only [llvmBit, Option.bind_eq_bind, Option.bind_eq_some_iff] at hb
  obtain ⟨x, hx, hb⟩ := hb
  cases x <;> simp only [reduceCtorEq, Option.ite_none_right_eq_some, Option.pure_def] at hb
  next width i =>
  obtain ⟨rfl, hb⟩ := hb
  obtain rfl := Option.some.inj hb
  have hzero : ∀ i : BitVec 1, (i.setWidth 32 = 0#32 ↔ decide (i ≠ 0) = false) ∧
      (i.signExtend 32 = 0#32 ↔ decide (i ≠ 0) = false) := by decide
  have hother : v.Exact env → ∃ y : BitVec 32, Operand env opts w locals v (.int y) ∧
      (y = 0#32 ↔ decide (i ≠ 0) = false) := fun hexact =>
    ⟨_, (operand_of_exact hldc held hin hexact hx).1, (hzero i).1⟩
  unfold Value.Storable at hstorable
  split at hstorable
  next width' i' =>
    cases hx
    refine ⟨i.signExtend 32, operand_of_uniform ?_, (hzero i).2⟩
    rw [printConstantLoad]
    have hval : constantVal opts i = .int (i.signExtend 32) := by simp [constantVal, hldc]
    exact uniform_pure (isPush_printConstLoadInt i).silent (hval ▸ acts_printConstLoadInt i)
  next => exact hother hstorable

end conditions

/-! ## Operations -/

/-- The index of a field is a constant, as is one of the short forms. -/
def IndexExact : GepType × Value → Prop
  | (ty, .const (.int _ _)) => ty.Fits
  | (.sequential elem, .var v) =>
      (GepType.sequential elem).Fits ∧ ∃ w ∈ longWidths, v.ty = .int w
  | _ => False

/-- The writer translates the operation as LLVM means it. -/
def Operation.Exact (env : Env) (values : Values) : Operation → Prop
  | .arithmetic op left right => left.Exact env ∧ right.Exact env ∧
      ∀ x y, llvmOperand env values left = some x → llvmOperand env values right = some y →
        ArithmeticExact op x y
  | .fneg v => v.Exact env
  | .cast op v ty => v.Exact env ∧ ∀ x, llvmOperand env values v = some x → CastExact op x ty
  | .cmp pred left right => left.Exact env ∧ right.Exact env ∧
      ∀ x, llvmOperand env values left = some x → CmpExact pred x
  | .select cond trueVal falseVal =>
      cond.Storable env ∧ trueVal.Storable env ∧ falseVal.Storable env
  | .load address _ => address.Exact env
  | .store address val => address.Exact env ∧ val.Exact env
  | .getElementPtr v indices => v.Exact env ∧ ∀ i ∈ indices, IndexExact i
  | .alloca _ (.const (.int _ _)) => True
  | .alloca _ v => v.Exact env ∧ v.type = .int .w32
  | _ => True

/-- The code does what the operation does: it leaves the memory, and what becomes the value. -/
def Evaluates (env : Env) (locals : Locals) (code : Code) (m : Memory) :
    Option LlvmVal × Memory → Prop
  | (none, m') => ∀ stack, run env code none ⟨locals, stack, m⟩ = .fall ⟨locals, stack, m'⟩
  | (some x, m') => ∃ y, x.StoredFrom y ∧
      ∀ stack, run env code none ⟨locals, stack, m⟩ = .fall ⟨locals, y :: stack, m'⟩

section operations

variable {env : Env} {opts : GenerationOpts} {vars : List Local} {w w' : Writer} {values : Values}
  {locals : Locals} {m m' : Memory} {code : Code} (hldc : opts.wideLdc = false)
  (held : values.Held vars w locals) (hw : w.Fresh)

theorem Pushes.evaluates {x : LlvmVal} {y : Val} (h : Pushes env locals code y)
    (hstored : x.StoredFrom y) (m : Memory) : Evaluates env locals code m (some x, m) :=
  ⟨y, hstored, fun stack => h stack m⟩

theorem Keeping.refl (hw : w.Fresh) : Keeping w w := ⟨hw, rfl, rfl⟩

theorem Values.Held.keeping (held : values.Held vars w locals) {w₁ : Writer} (h : Keeping w w₁) :
    values.Held vars w₁ locals := by
  apply held.congr
  intro v _ n hn
  rwa [Writer.Has, h.localVars]

include hldc held

/-- An operand that is loaded first. -/
theorem pushes_of_exact {v : Value} (hin : v.In vars) (hexact : v.Exact env) {x : LlvmVal}
    (hx : llvmOperand env values v = some x) {w₁ w₂ : Writer} (hw₁ : Keeping w w₁) {is : Code}
    (hprint : printValueLoad opts v w₁ = some (is, w₂)) :
    Pushes env locals is x.represent ∧ Keeping w w₂ ∧ x.type = v.type := by
  obtain ⟨hoperand, hty⟩ := operand_of_exact hldc held hin hexact hx
  obtain ⟨hpush, hkeep, -⟩ := hoperand.pushes hw₁ hprint
  exact ⟨hpush, hkeep, hty⟩

include hw

theorem evaluates_arithmetic {op : BinaryOp} {left right : Value} (hleft : left.In vars)
    (hright : right.In vars) (hexact : (Operation.arithmetic op left right).Exact env values)
    (hop : llvmOperation env values m (.arithmetic op left right) = some (x, m'))
    (hprint : printArithmeticInstruction opts op left right w = some (code, w')) :
    Evaluates env locals code m (x, m') := by
  obtain ⟨hl, hr, hvalues⟩ := hexact
  obtain ⟨a, ha, hop⟩ := Option.bind_eq_some_iff.mp hop
  obtain ⟨b, hb, hop⟩ := Option.bind_eq_some_iff.mp hop
  obtain ⟨z, hz, heq⟩ := Option.bind_eq_some_iff.mp hop
  cases heq
  obtain ⟨is, w₁, his, h₁⟩ := emit_bind_eq_some hprint
  obtain ⟨js, w₂, hjs, h₂⟩ := emit_bind_eq_some h₁
  cases h₂
  obtain ⟨hpush, hkeep, hty⟩ := pushes_of_exact hldc held hleft hl ha (.refl hw) his
  obtain ⟨hpush', -, hty'⟩ := pushes_of_exact hldc held hright hr hb hkeep hjs
  obtain ⟨v, hacts, hstored⟩ := acts_arithmeticCode (hvalues a b ha hb) hz
  rw [hty, hty'] at hacts
  exact (hpush.append₂ hpush' hacts).evaluates hstored m

theorem evaluates_cast {op : CastOp} {v : Value} {ty : Ty} (hv : v.In vars)
    (hexact : (Operation.cast op v ty).Exact env values)
    (hop : llvmOperation env values m (.cast op v ty) = some (x, m'))
    (hprint : printCastInstruction opts op v ty v.type w = some (code, w')) :
    Evaluates env locals code m (x, m') := by
  obtain ⟨a, ha, hop⟩ := Option.bind_eq_some_iff.mp hop
  obtain ⟨z, hz, heq⟩ := Option.bind_eq_some_iff.mp hop
  cases heq
  obtain ⟨is, w₁, his, h₁⟩ := emit_bind_eq_some hprint
  cases h₁
  obtain ⟨hpush, -, hty⟩ := pushes_of_exact hldc held hv hexact.1 ha (.refl hw) his
  obtain ⟨v', hacts, hstored, -⟩ := acts_castCode (hexact.2 a ha) hz
  rw [hty] at hacts
  exact (hpush.append hacts).evaluates hstored m

theorem evaluates_cmp {pred : CmpPredicate} {left right : Value} (hleft : left.In vars)
    (hright : right.In vars) (hexact : (Operation.cmp pred left right).Exact env values)
    (hop : llvmOperation env values m (.cmp pred left right) = some (x, m'))
    (hprint : printCmpInstruction opts pred left right w = some (code, w')) :
    Evaluates env locals code m (x, m') := by
  obtain ⟨hl, hr, hvalues⟩ := hexact
  obtain ⟨a, ha, hop⟩ := Option.bind_eq_some_iff.mp hop
  obtain ⟨b, hb, hop⟩ := Option.bind_eq_some_iff.mp hop
  obtain ⟨z, hz, heq⟩ := Option.bind_eq_some_iff.mp hop
  cases heq
  obtain ⟨is, w₁, his, h₁⟩ := emit_bind_eq_some hprint
  obtain ⟨js, w₂, hjs, h₂⟩ := emit_bind_eq_some h₁
  cases h₂
  obtain ⟨hpush, hkeep, hty⟩ := pushes_of_exact hldc held hleft hl ha (.refl hw) his
  obtain ⟨hpush', -, -⟩ := pushes_of_exact hldc held hright hr hb hkeep hjs
  obtain ⟨v, hacts, hstored, -⟩ := acts_cmpCode (hvalues a ha) hz
  rw [hty] at hacts
  exact (hpush.append₂ hpush' hacts).evaluates hstored m

theorem evaluates_select {cond trueVal falseVal : Value} (hcond : cond.In vars)
    (htrue : trueVal.In vars) (hfalse : falseVal.In vars)
    (hexact : (Operation.select cond trueVal falseVal).Exact env values)
    (hop : llvmOperation env values m (.select cond trueVal falseVal) = some (x, m'))
    (hprint : printSelectInstruction opts cond trueVal falseVal w = some (code, w')) :
    Evaluates env locals code m (x, m') := by
  obtain ⟨b, hb, hop⟩ := Option.bind_eq_some_iff.mp hop
  obtain ⟨z, hz, heq⟩ := Option.bind_eq_some_iff.mp hop
  cases heq
  obtain ⟨uid, w₀, huid, h₀⟩ := emit_bind_eq_some hprint
  obtain ⟨ic, w₁, hic, h₁⟩ := emit_bind_eq_some h₀
  obtain ⟨it, w₂, hit, h₂⟩ := emit_bind_eq_some h₁
  obtain ⟨la, w₃, hla, h₃⟩ := emit_bind_eq_some h₂
  obtain ⟨ie, w₄, hie, h₄⟩ := emit_bind_eq_some h₃
  obtain ⟨lb, w₅, hlb, h₅⟩ := emit_bind_eq_some h₄
  cases huid.symm.trans (getUID_eq w)
  cases h₅
  have hkeep₀ : Keeping w { w with uid := w.uid + 1 } :=
    ⟨fun l hl u hu => (hw l hl u hu).trans (Nat.le_succ _), rfl, rfl⟩
  have hemit₁ := emitted_printValueLoad hkeep₀.fresh (held.keeping hkeep₀).slots hcond hic
  have hkeep₁ := hkeep₀.emitted hemit₁
  have hemit₂ := emitted_printValueLoad hkeep₁.fresh (held.keeping hkeep₁).slots htrue hit
  have hkeep₂ := hkeep₁.emitted hemit₂
  have hle : w.uid + 1 ≤ w₂.uid := (hemit₁.trans hemit₂).uid_le
  have hold : ∀ k, ∀ u b, Label.select (w.uid + 1) k = .select u b → u ≤ w₂.uid := by
    intro k u b h
    cases h
    exact hle
  -- the number of the labels is a new one
  have hlast : w.lastLabel ≠ some (.select (w.uid + 1) false) := fun h =>
    absurd (hw _ h _ rfl) (by omega)
  have hla' := printLabel_of_ne ((hemit₁.trans hemit₂).last_ne hlast fun u b h => by
    cases h
    exact le_rfl)
  cases hla.symm.trans hla'
  have hkeep₃ : Keeping w { w₂ with lastLabel := some (.select (w.uid + 1) false) } :=
    ⟨fresh_of_label fun u hu => by cases hu; exact hle, hkeep₂.localVars, hkeep₂.basicblockMap⟩
  have hemit₃ := emitted_printValueLoad hkeep₃.fresh (held.keeping hkeep₃).slots hfalse hie
  have hlb' := printLabel_of_ne (hemit₃.last_ne (l := .select (w.uid + 1) true) (by simp) (hold _))
  cases hlb.symm.trans hlb'
  obtain ⟨y, hy, hyb⟩ := operand_of_bit hldc held hcond hexact.1 hb
  have hselected : ∃ r, Pushes env locals (if y = 0#32 then ie else it) r ∧ z.StoredFrom r := by
    cases b with
    | true =>
        obtain ⟨r, hr, hstored, -⟩ := operand_of_storable hldc held htrue hexact.2.1 hz
        rw [if_neg (by simp [hyb])]
        exact ⟨r, (hr.pushes hkeep₁ hit).1, hstored⟩
    | false =>
        obtain ⟨r, hr, hstored, -⟩ := operand_of_storable hldc held hfalse hexact.2.2 hz
        rw [if_pos (by simp [hyb])]
        exact ⟨r, (hr.pushes hkeep₃ hie).1, hstored⟩
  obtain ⟨r, hr, hstored⟩ := hselected
  apply Pushes.evaluates (y := r) _ hstored
  apply Pushes.select opts.wideGotos (hy.pushes hkeep₀ hic).1 hr
  · apply hemit₂.label_not_mem
    intro u b h
    cases h
    exact hemit₁.uid_le
  · exact hemit₃.label_not_mem (hold true)
  · simp

theorem evaluates_load {address : Value} {ty : Ty} (haddress : address.In vars)
    (hexact : (Operation.load address ty).Exact env values)
    (hop : llvmOperation env values m (.load address ty) = some (x, m'))
    (hprint : printIndirectLoad opts address ty w = some (code, w')) :
    Evaluates env locals code m (x, m') := by
  obtain ⟨a, haddr, hop⟩ := Option.bind_eq_some_iff.mp hop
  obtain ⟨y, hy, ha⟩ := Option.bind_eq_some_iff.mp haddr
  obtain ⟨z, hz, heq⟩ := Option.bind_eq_some_iff.mp hop
  cases heq
  cases y <;> cases ha
  obtain ⟨is, w₁, his, h₁⟩ := emit_bind_eq_some hprint
  cases h₁
  obtain ⟨hpush, -, -⟩ := pushes_of_exact hldc held haddress hexact hy (.refl hw) his
  obtain ⟨t, ht, -⟩ := Option.bind_eq_some_iff.mp hz
  obtain ⟨p, hload, hstored, -⟩ := load_of_llvmLoad ht hz
  have htype : primType (getTypeDescriptor ty false) = some t := by
    rw [primType_getTypeDescriptor (by rw [ht]; rfl), ht]
  refine ⟨result p, hstored, fun stack => ?_⟩
  rw [run_append_of_fall (hpush stack m)]
  have hcall : (do return some (result (← load a t)) : MemM (Option Val)) m =
      .ok (some (result p)) m := by
    simp only [bind, EStateM.bind, hload]
    rfl
  exact run_invokestatic [.int a] (invoke_load a htype) rfl hcall locals stack

theorem evaluates_store {address val : Value} (haddress : address.In vars) (hval : val.In vars)
    (hexact : (Operation.store address val).Exact env values)
    (hop : llvmOperation env values m (.store address val) = some (x, m'))
    (hprint : printIndirectStore opts address val w = some (code, w')) :
    Evaluates env locals code m (x, m') := by
  obtain ⟨a, haddr, hop⟩ := Option.bind_eq_some_iff.mp hop
  obtain ⟨y, hy, ha⟩ := Option.bind_eq_some_iff.mp haddr
  obtain ⟨z, hz, hop⟩ := Option.bind_eq_some_iff.mp hop
  obtain ⟨m₁, hstore, heq⟩ := Option.bind_eq_some_iff.mp hop
  cases heq
  cases y <;> cases ha
  obtain ⟨is, w₁, his, h₁⟩ := emit_bind_eq_some hprint
  obtain ⟨js, w₂, hjs, h₂⟩ := emit_bind_eq_some h₁
  cases h₂
  obtain ⟨hpush, hkeep, -⟩ := pushes_of_exact hldc held haddress hexact.1 hy (.refl hw) his
  obtain ⟨hpush', -, hty⟩ := pushes_of_exact hldc held hval hexact.2 hz hkeep hjs
  obtain ⟨p, hp, hrun⟩ := store_of_llvmStore hstore
  intro stack
  rw [List.append_assoc, run_append_of_fall (hpush stack m), run_append_of_fall (hpush' _ m)]
  have hcall : (do store a p; return none : MemM (Option Val)) m = .ok none m' := by
    simp only [bind, EStateM.bind, hrun]
    rfl
  exact run_invokestatic [z.represent, .int a] (invoke_store a (hty ▸ hp)) rfl hcall locals stack

theorem evaluates_alloca {ty : Ty} {arraySize : Value} (hsize : arraySize.In vars)
    (hexact : (Operation.alloca ty arraySize).Exact env values)
    (hop : llvmOperation env values m (.alloca ty arraySize) = some (x, m'))
    (hprint : printAllocaInstruction opts ty arraySize w = some (code, w')) :
    Evaluates env locals code m (x, m') := by
  obtain ⟨y, hy, hop⟩ := Option.bind_eq_some_iff.mp hop
  cases y <;> simp only [reduceCtorEq] at hop
  next width n =>
  split at hop
  next a m₁ halloc =>
    cases hop
    have hcall : (do return some (Val.int (← allocateStack (BitVec.ofNat 32 (n.toNat *
        jvm.getTypeAllocSize ty)))) : MemM (Option Val)) m = .ok (some (.int a)) m' := by
      simp only [bind, EStateM.bind, halloc]
      rfl
    have hrun : ∀ stack, run env [.invokestatic .allocateStack] none ⟨locals, .int (BitVec.ofNat 32
        (n.toNat * jvm.getTypeAllocSize ty)) :: stack, m⟩ = .fall ⟨locals, .int a :: stack, m'⟩ :=
      run_invokestatic [_] rfl rfl hcall locals
    refine ⟨.int a, ⟨rfl, rfl⟩, fun stack => ?_⟩
    unfold printAllocaInstruction at hprint
    split at hprint
    next width' n' =>
      cases hy
      cases hprint
      rw [run_append_of_fall (run_printPtrLoad env hldc _ _)]
      exact hrun stack
    next hconst =>
      have hwide : arraySize.Exact env ∧ arraySize.type = .int .w32 := by
        cases arraySize with
        | var v => exact hexact
        | const c =>
            cases c with
            | int width' n' => exact absurd rfl (hconst width' n')
            | _ => exact hexact
      obtain ⟨is, w₁, his, h₁⟩ := emit_bind_eq_some hprint
      cases h₁
      obtain ⟨hpush, -, hty⟩ := pushes_of_exact hldc held hsize hwide.1 hy (.refl hw) his
      obtain rfl : width = .w32 := Ty.int.inj (hty.trans hwide.2)
      have hrep : (LlvmVal.int .w32 n).represent = .int n :=
        congrArg Val.int (BitVec.signExtend_eq n)
      have hprod : BitVec.ofNat 32 (jvm.getTypeAllocSize ty) * n =
          BitVec.ofNat 32 (n.toNat * jvm.getTypeAllocSize ty) := by
        rw [BitVec.mul_comm, BitVec.ofNat_mul, BitVec.ofNat_toNat, BitVec.setWidth_eq]
      rw [hrep] at hpush
      rw [List.append_assoc, run_append_of_fall (run_printPtrLoad env hldc _ _)]
      change run env (is ++ ([.arith .i .mul] ++ [.invokestatic .allocateStack])) none
        ⟨locals, _ :: stack, m⟩ = _
      rw [run_append_of_fall (hpush _ m)]
      have hmul : run env [.arith .i .mul] none ⟨locals, .int n ::
          .int (BitVec.ofNat 32 (jvm.getTypeAllocSize ty)) :: stack, m⟩ =
          .fall ⟨locals, .int (BitVec.ofNat 32 (jvm.getTypeAllocSize ty) * n) :: stack, m⟩ := rfl
      rw [run_append_of_fall hmul, hprod]
      exact hrun stack
  next => cases hop

omit hw in
/-- Each index adds its offset to the address. -/
theorem run_gepIndices {indices : List (GepType × Value)} {xs : List (GepType × LlvmVal)}
    {a b : BitVec 32} {is : Code} (hin : ∀ i ∈ indices, i.2.In vars)
    (hexact : ∀ i ∈ indices, IndexExact i)
    (hxs : (indices.mapM fun i => do return (i.1, ← llvmOperand env values i.2)) = some xs)
    (hgep : llvmGep a xs = some b) (hprint : printGepIndices opts indices w = some (is, w'))
    (stack : List Val) (m : Memory) :
    run env is none ⟨locals, .int a :: stack, m⟩ = .fall ⟨locals, .int b :: stack, m⟩ := by
  induction indices generalizing xs a is with
  | nil =>
      cases hxs
      cases hgep
      cases hprint
      rfl
  | cons i indices ih =>
      obtain ⟨ty, v⟩ := i
      simp only [List.mapM_cons, Option.pure_def, Option.bind_eq_bind,
        Option.bind_eq_some_iff] at hxs
      obtain ⟨p, ⟨x, hx, hp⟩, xs', hxs', heq⟩ := hxs
      cases hp
      cases heq
      obtain ⟨offset, hoffset, hrest⟩ := Option.bind_eq_some_iff.mp hgep
      have hindex : ∃ js, printGepIndex opts jvm ty v.constant v.type (printValueLoad opts v) w =
          some (js, w) ∧ run env js none ⟨locals, .int a :: stack, m⟩ =
            .fall ⟨locals, .int (a + offset) :: stack, m⟩ := by
        have hone := hexact _ List.mem_cons_self
        unfold IndexExact at hone
        split at hone
        next heq =>
          cases heq
          cases hx
          cases ty with
          | struct fields =>
              obtain ⟨js, hjs, -, hacts⟩ := printGepIndex_struct hldc hone hoffset _ _ w
              exact ⟨js, hjs, hacts a ⟨locals, stack, m⟩⟩
          | sequential elem =>
              obtain ⟨js, hjs, -, hacts⟩ := printGepIndex_constant hldc hone hoffset _ _ w
              exact ⟨js, hjs, hacts a ⟨locals, stack, m⟩⟩
        next heq =>
          cases heq
          obtain ⟨hfit, width, hwidth, hty⟩ := hone
          have hv := hin _ List.mem_cons_self
          obtain ⟨hxty, hslot⟩ := held.value _ hv x hx
          rw [hty] at hxty
          cases x <;> cases hxty
          next i =>
          cases hoffset
          obtain ⟨js, hjs, hrun⟩ := run_variableIndex env hldc _ hwidth i hfit hty
            (held.slots.has _ hv)
          exact ⟨js, hjs, hrun ⟨locals, stack, m⟩ a hslot⟩
        next => exact hone.elim
      obtain ⟨js, hjs, hrun⟩ := hindex
      obtain ⟨js', w₁, hjs', h₁⟩ := emit_bind_eq_some hprint
      cases hjs.symm.trans hjs'
      obtain ⟨ks, w₂, hks, h₂⟩ := emit_bind_eq_some h₁
      cases h₂
      rw [run_append_of_fall hrun]
      exact ih (fun i hi => hin i (List.mem_cons_of_mem _ hi))
        (fun i hi => hexact i (List.mem_cons_of_mem _ hi)) hxs' hrest hks

theorem evaluates_gep {v : Value} {indices : List (GepType × Value)} (hv : v.In vars)
    (hin : ∀ i ∈ indices, i.2.In vars)
    (hexact : (Operation.getElementPtr v indices).Exact env values)
    (hop : llvmOperation env values m (.getElementPtr v indices) = some (x, m'))
    (hprint : printGepInstruction opts v indices w = some (code, w')) :
    Evaluates env locals code m (x, m') := by
  obtain ⟨xs, hxs, hop⟩ := Option.bind_eq_some_iff.mp hop
  obtain ⟨a, haddr, hop⟩ := Option.bind_eq_some_iff.mp hop
  obtain ⟨y, hy, ha⟩ := Option.bind_eq_some_iff.mp haddr
  obtain ⟨b, hgep, heq⟩ := Option.bind_eq_some_iff.mp hop
  cases heq
  cases y <;> cases ha
  obtain ⟨base, w₁, hbase, h₁⟩ := emit_bind_eq_some hprint
  obtain ⟨is, w₂, his, h₂⟩ := emit_bind_eq_some h₁
  cases h₂
  obtain ⟨js, w₃, hjs, h₃⟩ := emit_bind_eq_some hbase
  cases h₃
  obtain ⟨hpush, hkeep, hty⟩ := pushes_of_exact hldc held hv hexact.1 hy (.refl hw) hjs
  have hcast : castCode .inttoptr .pointer v.type = [] := by
    rw [← hty]
    rfl
  refine ⟨.int b, ⟨rfl, rfl⟩, fun stack => ?_⟩
  rw [hcast, List.append_nil, run_append_of_fall (hpush stack m)]
  exact run_gepIndices hldc (held.keeping hkeep) hin hexact.2 hxs hgep his stack m

end operations

end Llxvm.Backend
