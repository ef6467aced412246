import Llxvm.Backend.Cast

/-!
# Loads of constants

The code that loads a constant leaves the same value wherever and whenever it is printed:
it depends neither on the locals, the stack and the memory, nor on the numbers of its
labels.
-/

namespace Llxvm.Backend

open Llxvm.Jvm

/-! ## What printing does to the writer -/

/-- The number in a label that is made from `getUID`. -/
def labelUID : Label → Option ℕ
  | .phi _ uid => some uid
  | .select uid _ => some uid
  | _ => none

/-- The last label does not clash with one that is still to come. -/
def Writer.Fresh (w : Writer) : Prop :=
  ∀ l, w.lastLabel = some l → ∀ u, labelUID l = some u → u ≤ w.uid

/-- The effect of printing a load: only labels of its own are defined. -/
structure Emitted (w w' : Writer) (is : Code) : Prop where
  localVars : w'.localVars = w.localVars
  basicblockMap : w'.basicblockMap = w.basicblockMap
  uid_le : w.uid ≤ w'.uid
  last : w'.lastLabel = w.lastLabel ∨ ∃ l, w'.lastLabel = some l ∧ .label l ∈ is
  labels : ∀ l, .label l ∈ is → ∃ u b, l = .select u b ∧ w.uid < u ∧ u ≤ w'.uid

theorem Emitted.fresh {w w' : Writer} {is : Code} (h : Emitted w w' is) (hw : w.Fresh) :
    w'.Fresh := by
  intro l hl u hu
  rcases h.last with hlast | ⟨l', hlast, hmem⟩
  · exact (hw l (hlast ▸ hl) u hu).trans h.uid_le
  · obtain ⟨u', b, rfl, -, hle⟩ := h.labels l' hmem
    cases hlast.symm.trans hl
    cases hu
    exact hle

theorem Emitted.trans {w w₁ w₂ : Writer} {is js : Code} (h₁ : Emitted w w₁ is)
    (h₂ : Emitted w₁ w₂ js) : Emitted w w₂ (is ++ js) where
  localVars := h₂.localVars.trans h₁.localVars
  basicblockMap := h₂.basicblockMap.trans h₁.basicblockMap
  uid_le := h₁.uid_le.trans h₂.uid_le
  last := by
    rcases h₂.last with hlast | ⟨l, hlast, hmem⟩
    · rcases h₁.last with hlast₁ | ⟨l, hlast₁, hmem⟩
      · exact .inl (hlast.trans hlast₁)
      · exact .inr ⟨l, hlast.trans hlast₁, List.mem_append_left js hmem⟩
    · exact .inr ⟨l, hlast, List.mem_append_right is hmem⟩
  labels := by
    intro l hl
    rcases List.mem_append.mp hl with hl | hl
    · obtain ⟨u, b, rfl, hlo, hhi⟩ := h₁.labels l hl
      exact ⟨u, b, rfl, hlo, hhi.trans h₂.uid_le⟩
    · obtain ⟨u, b, rfl, hlo, hhi⟩ := h₂.labels l hl
      exact ⟨u, b, rfl, h₁.uid_le.trans_lt hlo, hhi⟩

/-- A label with an older number, or of another form, is not among those defined. -/
theorem Emitted.label_not_mem {w w' : Writer} {is : Code} (h : Emitted w w' is) {l : Label}
    (hl : ∀ u b, l = .select u b → u ≤ w.uid) : .label l ∉ is := by
  intro hmem
  obtain ⟨u, b, rfl, hlo, -⟩ := h.labels l hmem
  exact absurd (hl u b rfl) (not_le.mpr hlo)

theorem Emitted.last_ne {w w' : Writer} {is : Code} (h : Emitted w w' is) {l : Label}
    (hne : w.lastLabel ≠ some l) (hl : ∀ u b, l = .select u b → u ≤ w.uid) :
    w'.lastLabel ≠ some l := by
  intro heq
  rcases h.last with hlast | ⟨l', hlast, hmem⟩
  · exact hne (hlast ▸ heq)
  · cases hlast.symm.trans heq
    exact h.label_not_mem hl hmem

/-- No label is defined in the code. -/
def Silent (is : Code) : Prop := ∀ l, Instr.label l ∉ is

theorem Emitted.refl (w : Writer) {is : Code} (h : Silent is) : Emitted w w is where
  localVars := rfl
  basicblockMap := rfl
  uid_le := le_rfl
  last := .inl rfl
  labels := fun l hl => (h l hl).elim

theorem Silent.append {is js : Code} (h₁ : Silent is) (h₂ : Silent js) : Silent (is ++ js) := by
  intro l hl
  rcases List.mem_append.mp hl with hl | hl
  · exact h₁ l hl
  · exact h₂ l hl

/-! ## Uniform code -/

section uniform

variable {env : Env} {blocks : List (String × ℕ)}

/-- Printed from any state of the writer, the code acts in the same way. -/
def Uniform (env : Env) (blocks : List (String × ℕ)) (x : Emit Code) (args : List Val)
    (r : Delivery) : Prop :=
  ∀ w : Writer, w.Fresh → w.basicblockMap = blocks →
    ∃ is w', x w = some (is, w') ∧ Emitted w w' is ∧ Acts env is args r

/-- If it can be printed at all, the code is uniform. -/
def Settled (env : Env) (blocks : List (String × ℕ)) (x : Emit Code) (args : List Val) : Prop :=
  ∀ w : Writer, w.Fresh → w.basicblockMap = blocks → (x w).isSome →
    ∃ r, Uniform env blocks x args r

/-- Print two pieces of code. -/
def Emit.cat (x y : Emit Code) : Emit Code := do
  let is ← x
  let js ← y
  return is ++ js

theorem cat_eq_of_eq {x y : Emit Code} {w w₁ w₂ : Writer} {is js : Code} (hx : x w = some (is, w₁))
    (hy : y w₁ = some (js, w₂)) : Emit.cat x y w = some (is ++ js, w₂) := by
  simp only [Emit.cat, emit_bind, emit_pure, hx, hy, Option.bind_some]

theorem exists_of_bind {α β : Type} {x : Emit α} {f : α → Emit β} {w : Writer}
    (h : ((x >>= f) w).isSome) : ∃ a w₁, x w = some (a, w₁) ∧ (f a w₁).isSome := by
  obtain ⟨p, hp⟩ := Option.isSome_iff_exists.mp h
  obtain ⟨a, w₁, hx, hf⟩ := emit_bind_eq_some hp
  exact ⟨a, w₁, hx, by rw [hf]; rfl⟩

theorem Uniform.cat {x y : Emit Code} {args below : List Val} {r : Delivery} {f : Val → Delivery}
    (hx : Uniform env blocks x args r) (hy : ∀ v, Uniform env blocks y (v :: below) (f v)) :
    Uniform env blocks (Emit.cat x y) (args ++ below) (r.andThen f) := by
  intro w hw hb
  obtain ⟨is, w₁, hprint, hemit, hacts⟩ := hx w hw hb
  have hb₁ : w₁.basicblockMap = blocks := hemit.basicblockMap.trans hb
  obtain ⟨js, w₂, hprint₂, hemit₂, -⟩ := hy (.int 0#32) w₁ (hemit.fresh hw) hb₁
  refine ⟨_, w₂, cat_eq_of_eq hprint hprint₂, hemit.trans hemit₂, hacts.append fun v _ => ?_⟩
  obtain ⟨js', w₂', hprint', -, hacts'⟩ := hy v w₁ (hemit.fresh hw) hb₁
  cases hprint₂.symm.trans hprint'
  exact hacts'

theorem Settled.cat {x y : Emit Code} {args below : List Val} (hx : Settled env blocks x args)
    (hy : ∀ v, Settled env blocks y (v :: below)) :
    Settled env blocks (Emit.cat x y) (args ++ below) := by
  intro w hw hb hsome
  obtain ⟨is, w₁, hprint, hsome₁⟩ := exists_of_bind hsome
  obtain ⟨js, w₂, hprint₂, -⟩ := exists_of_bind hsome₁
  obtain ⟨r, hr⟩ := hx w hw hb (by simp [hprint])
  obtain ⟨is', w₁', hprint', hemit, -⟩ := hr w hw hb
  cases hprint.symm.trans hprint'
  choose f hf using fun v => hy v w₁ (hemit.fresh hw) (hemit.basicblockMap.trans hb)
    (by simp [hprint₂])
  exact ⟨_, hr.cat hf⟩

theorem settled_pure {is : Code} {args : List Val} (hsilent : Silent is)
    (hacts : ∃ r, Acts env is args r) : Settled env blocks (pure is) args := by
  intro w _ _ _
  obtain ⟨r, hr⟩ := hacts
  exact ⟨r, fun w _ _ => ⟨is, w, rfl, .refl w hsilent, hr⟩⟩

theorem settled_unreachable {args : List Val} : Settled env blocks unreachable args := by
  intro w _ _ hsome
  cases hsome

end uniform

/-! ## The pieces of a load -/

section pieces

variable {env : Env} {opts : GenerationOpts}

/-- One pushing instruction. -/
def IsPush (is : Code) : Prop := ∃ i, is = [i] ∧ i.isPush = true

theorem IsPush.silent {is : Code} (h : IsPush is) : Silent is := by
  obtain ⟨i, rfl, hi⟩ := h
  intro l hl
  rw [← List.mem_singleton.mp hl] at hi
  cases hi

theorem IsPush.acts {is : Code} (h : IsPush is) : ∃ r, Acts env is [] r := by
  obtain ⟨i, rfl, hi⟩ := h
  exact acts_push hi

theorem isPush_ldcToken (text : Literal) : IsPush [ldcToken opts text] := by
  unfold ldcToken
  split_ifs <;> exact ⟨_, rfl, rfl⟩

theorem isPush_printConstLoadInt {n : ℕ} (i : BitVec n) : IsPush (printConstLoadInt opts i) := by
  unfold printConstLoadInt
  simp only
  split_ifs <;> first | exact isPush_ldcToken _ | exact ⟨_, rfl, rfl⟩

theorem isPush_printConstLoadFloat (f : BitVec 32) : IsPush (printConstLoadFloat opts f) := by
  unfold printConstLoadFloat
  split_ifs <;> first | exact isPush_ldcToken _ | exact ⟨_, rfl, rfl⟩

theorem isPush_printConstLoadDouble (d : BitVec 64) : IsPush (printConstLoadDouble d) := by
  unfold printConstLoadDouble
  split_ifs <;> exact ⟨_, rfl, rfl⟩

theorem silent_of_isUnary {is : Code} (h : ∀ i ∈ is, i.isUnary) : Silent is := by
  intro l hl
  cases h _ hl

theorem castCode_acts (op : CastOp) (ty srcTy : Ty) (v : Val) :
    ∃ r, Acts env (castCode op ty srcTy) [v] r :=
  ⟨_, acts_unaryCode (castCode_isUnary op ty srcTy) v⟩

/-- The instructions on two operands. -/
def IsBinary (is : Code) : Prop :=
  (∃ p op, is = [.arith p op]) ∨ (∃ p op, is = [.conv .l .i, .arith p op]) ∨
    ∃ m : MethodRef, is = [.invokestatic m] ∧ m.isPure = true ∧ m.arity = 2

theorem IsBinary.silent {is : Code} (h : IsBinary is) : Silent is := by
  rcases h with ⟨p, op, rfl⟩ | ⟨p, op, rfl⟩ | ⟨m, rfl, -, -⟩ <;> intro l hl <;> simp at hl

theorem IsBinary.acts {is : Code} (h : IsBinary is) (a b : Val) : ∃ r, Acts env is [b, a] r := by
  rcases h with ⟨p, op, rfl⟩ | ⟨p, op, rfl⟩ | ⟨m, rfl, hpure, harity⟩
  · exact ⟨_, acts_arith p op a b⟩
  · have hboth : ∃ r, Acts env ([.conv .l .i] ++ [.arith p op]) ([b] ++ [a]) r :=
      acts_append_exists ⟨_, acts_conv .l .i b⟩ fun v => ⟨_, acts_arith p op a v⟩
    exact hboth
  · exact ⟨_, acts_invoke hpure (by simp [harity])⟩

theorem isBinary_arithmeticCode (op : BinaryOp) (leftTy rightTy : Ty) :
    IsBinary (arithmeticCode op leftTy rightTy) := by
  have hshift : ∀ p jop, IsBinary
      ((if getBitWidth rightTy false = 64 then [Instr.conv .l .i] else []) ++ [.arith p jop]) := by
    intro p jop
    split_ifs
    · exact .inr (.inl ⟨p, jop, rfl⟩)
    · exact .inl ⟨p, jop, rfl⟩
  cases op <;>
    first
    | exact .inl ⟨_, _, rfl⟩
    | exact hshift _ _
    | exact .inr (.inr ⟨_, rfl, rfl, rfl⟩)

theorem isBinary_cmpCode (pred : CmpPredicate) (leftTy : Ty) : IsBinary (cmpCode pred leftTy) := by
  cases pred <;> exact .inr (.inr ⟨_, rfl, rfl, rfl⟩)

theorem printFunctionLoad_silent (f : FunctionRef) : Silent (printFunctionLoad opts f) := by
  intro l hl
  unfold printFunctionLoad ldcToken at hl
  split_ifs at hl <;> simp at hl

theorem printFunctionLoad_acts (f : FunctionRef) :
    ∃ r, Acts env (printFunctionLoad opts f) [] r := by
  have hclass : IsPush [if f.external then .classForMethod (methodName f)
      else ldcToken opts (.className .self)] := by
    split_ifs
    · exact ⟨_, rfl, rfl⟩
    · exact isPush_ldcToken _
  have hcall : ∀ a, ∃ r, Acts env ([ldcToken opts (.methodName (methodName f))] ++
      [.invokestatic .getFunctionPointer]) ([] ++ [a]) r := fun a =>
    acts_append_exists (isPush_ldcToken _).acts fun b => ⟨_, acts_invoke rfl rfl⟩
  exact acts_append_exists hclass.acts hcall

end pieces

/-! ## All constants -/

section constants

variable {env : Env} {blocks : List (String × ℕ)} {opts : GenerationOpts}

theorem IsPush.settled {is : Code} (h : IsPush is) : Settled env blocks (pure is) [] :=
  settled_pure h.silent h.acts

theorem settled_printGepIndex (dl : DataLayout) (ty : GepType) (index : Option Constant)
    (indexTy : Ty) {loadIndex : Emit Code} (hload : Settled env blocks loadIndex []) (v : Val) :
    Settled env blocks (printGepIndex opts dl ty index indexTy loadIndex) [v] := by
  have hshort : ∀ (n : ℕ) (op : ArithOp),
      Settled env blocks (pure (printPtrLoad opts n ++ [.arith .i op])) [v] := by
    intro n op
    have hpush : IsPush (printPtrLoad opts n) := isPush_printConstLoadInt _
    refine settled_pure (hpush.silent.append (by intro l hl; simp at hl)) ?_
    have hacts : ∃ r, Acts env (printPtrLoad opts n ++ [.arith .i op]) ([] ++ [v]) r :=
      acts_append_exists hpush.acts fun a => ⟨_, acts_arith .i op v a⟩
    exact hacts
  have hlong : ∀ elem : Ty, Settled env blocks (do
      let load ← loadIndex
      return printPtrLoad opts (dl.getTypeAllocSize elem % 2 ^ 32) ++ load ++
        castCode .inttoptr .pointer indexTy ++ [.arith .i .mul, .arith .i .add]) [v] := by
    intro elem
    have hpush : IsPush (printPtrLoad opts (dl.getTypeAllocSize elem % 2 ^ 32)) :=
      isPush_printConstLoadInt _
    have hcode : ∀ a b, ∃ r, Acts env (castCode .inttoptr .pointer indexTy ++
        ([.arith .i .mul] ++ [.arith .i .add])) ([b] ++ ([a] ++ [v])) r := fun a b =>
      acts_append_exists (castCode_acts _ _ _ b) fun b => acts_append_exists
        ⟨_, acts_arith .i .mul a b⟩ fun p => ⟨_, acts_arith .i .add v p⟩
    have hsilent : Silent (castCode .inttoptr .pointer indexTy ++
        ([.arith .i .mul] ++ [.arith .i .add])) :=
      (silent_of_isUnary (castCode_isUnary _ _ _)).append (by intro l hl; simp at hl)
    have heq : (do
        let load ← loadIndex
        return printPtrLoad opts (dl.getTypeAllocSize elem % 2 ^ 32) ++ load ++
          castCode .inttoptr .pointer indexTy ++ [.arith .i .mul, .arith .i .add]) =
        Emit.cat (pure (printPtrLoad opts (dl.getTypeAllocSize elem % 2 ^ 32)))
          (Emit.cat loadIndex (pure (castCode .inttoptr .pointer indexTy ++
            ([.arith .i .mul] ++ [.arith .i .add])))) := by
      funext w
      simp only [Emit.cat, emit_bind, emit_pure, Option.bind_some, List.append_assoc]
      cases loadIndex w <;> rfl
    rw [heq]
    exact hpush.settled.cat fun a => hload.cat fun b => settled_pure hsilent (hcode a b)
  unfold printGepIndex
  split
  · exact hshort _ _
  · exact settled_unreachable
  · simp only
    split_ifs
    · exact settled_pure (by intro l hl; cases hl) ⟨_, .nil v⟩
    · exact hshort _ _
    · exact hshort _ _
  · exact hlong _

theorem settled_binary {left right : Emit Code} {is : Code} (hleft : Settled env blocks left [])
    (hright : Settled env blocks right []) (his : IsBinary is) :
    Settled env blocks (do
      let l ← left
      let r ← right
      return l ++ r ++ is) [] := by
  have heq : (do
      let l ← left
      let r ← right
      return l ++ r ++ is) = Emit.cat left (Emit.cat right (pure is)) := by
    funext w
    simp only [Emit.cat, emit_bind, emit_pure, List.append_assoc]
    cases left w with
    | none => rfl
    | some p => cases hr : right p.2 <;> simp [hr]
  rw [heq]
  exact hleft.cat fun a => hright.cat fun b => settled_pure his.silent (his.acts a b)

theorem printLabel_of_ne {w : Writer} {l : Label} (h : w.lastLabel ≠ some l) :
    printLabel l w = some ([.label l], { w with lastLabel := some l }) := by
  simp only [printLabel, emit_bind, emit_get, Option.bind_some, if_neg h]
  rfl

theorem getUID_eq (w : Writer) : getUID w = some (w.uid + 1, { w with uid := w.uid + 1 }) := rfl

theorem fresh_of_label {w : Writer} {l : Label} (hl : ∀ u, labelUID l = some u → u ≤ w.uid) :
    Writer.Fresh { w with lastLabel := some l } := by
  intro l' hl' u hu
  cases hl'
  exact hl u hu

section select

variable {cond trueVal falseVal : Emit Code}

/-- Up to the first label of a selection. -/
theorem select_first {rc rt : Delivery} (hc : Uniform env blocks cond [] rc)
    (ht : Uniform env blocks trueVal [] rt) {w : Writer} (hw : w.Fresh)
    (hb : w.basicblockMap = blocks) : ∃ ic w₁ it w₂,
      cond { w with uid := w.uid + 1 } = some (ic, w₁) ∧
      Emitted { w with uid := w.uid + 1 } w₁ ic ∧ Acts env ic [] rc ∧
      trueVal w₁ = some (it, w₂) ∧ Emitted w₁ w₂ it ∧ Acts env it [] rt ∧
      printLabel (.select (w.uid + 1) false) w₂ =
        some ([.label (.select (w.uid + 1) false)],
          { w₂ with lastLabel := some (.select (w.uid + 1) false) }) ∧
      Writer.Fresh { w₂ with lastLabel := some (.select (w.uid + 1) false) } := by
  have hw₀ : Writer.Fresh { w with uid := w.uid + 1 } := fun l hl u hu =>
    (hw l hl u hu).trans (Nat.le_succ _)
  obtain ⟨ic, w₁, hic, hemit, hacts⟩ := hc _ hw₀ hb
  obtain ⟨it, w₂, hit, hemit₂, hacts₂⟩ := ht w₁ (hemit.fresh hw₀) (hemit.basicblockMap.trans hb)
  have hlast : w.lastLabel ≠ some (.select (w.uid + 1) false) := fun h =>
    absurd (hw _ h _ rfl) (by omega)
  have hboth := hemit.trans hemit₂
  have hlabel := printLabel_of_ne (hboth.last_ne hlast (by
    intro u b h
    cases h
    exact le_rfl))
  refine ⟨ic, w₁, it, w₂, hic, hemit, hacts, hit, hemit₂, hacts₂, hlabel, fresh_of_label ?_⟩
  intro u hu
  cases hu
  exact hboth.uid_le

theorem Uniform.select {rc rt rf : Delivery} (hc : Uniform env blocks cond [] rc)
    (ht : Uniform env blocks trueVal [] rt) (hf : Uniform env blocks falseVal [] rf) :
    Uniform env blocks (do
      let uid ← getUID
      let c ← cond
      let t ← trueVal
      let la ← printLabel (.select uid false)
      let f ← falseVal
      let lb ← printLabel (.select uid true)
      return c ++ [.ifeq (.select uid false)] ++ t ++ [gotoToken opts (.select uid true)] ++
        la ++ f ++ lb) [] (rc.andThen (selected rt rf)) := by
  intro w hw hb
  obtain ⟨ic, w₁, it, w₂, hic, hemit, hacts, hit, hemit₂, hacts₂, hlabel, hfresh⟩ :=
    select_first hc ht hw hb
  obtain ⟨jf, w₃, hjf, hemit₃, hacts₃⟩ := hf _ hfresh
    ((hemit₂.basicblockMap.trans hemit.basicblockMap).trans hb)
  have hle : w.uid + 1 ≤ w₂.uid := (hemit.trans hemit₂).uid_le
  have hold : ∀ b u b', Label.select (w.uid + 1) b = .select u b' → u ≤ w₂.uid := by
    intro b u b' h
    cases h
    exact hle
  have hlabel₃ := printLabel_of_ne (hemit₃.last_ne (l := .select (w.uid + 1) true) (by simp)
    (hold true))
  refine ⟨ic ++ [.ifeq (.select (w.uid + 1) false)] ++ it ++
      [gotoToken opts (.select (w.uid + 1) true)] ++ [.label (.select (w.uid + 1) false)] ++ jf ++
      [.label (.select (w.uid + 1) true)],
    { w₃ with lastLabel := some (.select (w.uid + 1) true) }, ?_, ⟨?_, ?_, ?_, ?_, ?_⟩, ?_⟩
  · simp only [emit_bind, emit_pure, getUID_eq, Option.bind_some, hic, hit, hlabel, hjf, hlabel₃]
  · exact hemit₃.localVars.trans (hemit₂.localVars.trans hemit.localVars)
  · exact hemit₃.basicblockMap.trans (hemit₂.basicblockMap.trans hemit.basicblockMap)
  · exact (Nat.le_succ _).trans (hle.trans hemit₃.uid_le)
  · exact .inr ⟨_, rfl, by simp⟩
  · have hle₃ : w₂.uid ≤ w₃.uid := hemit₃.uid_le
    intro l hl
    simp only [gotoToken, List.mem_append, List.mem_singleton, reduceCtorEq, or_false,
      Instr.label.injEq] at hl
    rcases hl with (((hl | hl) | rfl) | hl) | rfl
    · obtain ⟨u, b, rfl, hlo, hhi⟩ := hemit.labels l hl
      have hle₂ := hemit₂.uid_le
      simp only at hlo
      exact ⟨u, b, rfl, by omega, by simp only; omega⟩
    · obtain ⟨u, b, rfl, hlo, hhi⟩ := hemit₂.labels l hl
      have hle₁ : w.uid + 1 ≤ w₁.uid := hemit.uid_le
      exact ⟨u, b, rfl, by omega, by simp only; omega⟩
    · exact ⟨_, _, rfl, Nat.lt_succ_self _, hle.trans hle₃⟩
    · obtain ⟨u, b, rfl, hlo, hhi⟩ := hemit₃.labels l hl
      simp only at hlo
      exact ⟨u, b, rfl, by omega, hhi⟩
    · exact ⟨_, _, rfl, Nat.lt_succ_self _, hle.trans hle₃⟩
  · have hnot : .label (.select (w.uid + 1) false) ∉ it := hemit₂.label_not_mem fun u b h => by
      cases h
      exact hemit.uid_le
    have hselect := acts_select opts.wideGotos hacts hacts₂ hacts₃ hnot
      (hemit₃.label_not_mem (l := .select (w.uid + 1) true) (hold true)) (by simp)
    simpa only [gotoToken, List.append_assoc] using hselect

end select

theorem settled_select {cond trueVal falseVal : Emit Code} (hc : Settled env blocks cond [])
    (ht : Settled env blocks trueVal []) (hf : Settled env blocks falseVal []) :
    Settled env blocks (do
      let uid ← getUID
      let c ← cond
      let t ← trueVal
      let la ← printLabel (.select uid false)
      let f ← falseVal
      let lb ← printLabel (.select uid true)
      return c ++ [.ifeq (.select uid false)] ++ t ++ [gotoToken opts (.select uid true)] ++
        la ++ f ++ lb) [] := by
  intro w hw hb hsome
  obtain ⟨uid, w₀, huid, hsome⟩ := exists_of_bind hsome
  obtain ⟨ic, w₁, hic, hsome⟩ := exists_of_bind hsome
  obtain ⟨it, w₂, hit, hsome⟩ := exists_of_bind hsome
  obtain ⟨la, w₃, hla, hsome⟩ := exists_of_bind hsome
  obtain ⟨jf, w₄, hjf, -⟩ := exists_of_bind hsome
  cases huid.symm.trans (getUID_eq w)
  have hw₀ : Writer.Fresh { w with uid := w.uid + 1 } := fun l hl u hu =>
    (hw l hl u hu).trans (Nat.le_succ _)
  obtain ⟨rc, hrc⟩ := hc _ hw₀ hb (by simp [hic])
  obtain ⟨ic', w₁', hic', hemit, -⟩ := hrc _ hw₀ hb
  cases hic.symm.trans hic'
  obtain ⟨rt, hrt⟩ := ht w₁ (hemit.fresh hw₀) (hemit.basicblockMap.trans hb) (by simp [hit])
  obtain ⟨ic', w₁', it', w₂', hic', -, -, hit', hemit₂, -, hlabel, hfresh⟩ :=
    select_first hrc hrt hw hb
  cases hic.symm.trans hic'
  cases hit.symm.trans hit'
  cases hla.symm.trans hlabel
  obtain ⟨rf, hrf⟩ := hf _ hfresh
    ((hemit₂.basicblockMap.trans hemit.basicblockMap).trans hb) (by simp [hjf])
  exact ⟨_, hrc.select hrt hrf⟩

theorem settled_blockAddress (block : String) : Settled env blocks (do
    match (← get).basicblockMap.lookup block with
    | some bsid => return [ldcToken opts (.int bsid)]
    | none => unreachable) [] := by
  intro w _ hb hsome
  cases hlookup : blocks.lookup block with
  | none => simp [emit_bind, emit_get, hb, hlookup, unreachable] at hsome
  | some bsid =>
      have hpush : IsPush [ldcToken opts (.int bsid)] := isPush_ldcToken _
      obtain ⟨r, hr⟩ : ∃ r, Acts env _ [] r := hpush.acts
      refine ⟨r, fun w _ hb => ⟨_, w, ?_, .refl w hpush.silent, hr⟩⟩
      simp only [emit_bind, emit_get, Option.bind_some, hb, hlookup, emit_pure]

mutual

theorem settled_printConstantLoad : ∀ c : Constant,
    Settled env blocks (printConstantLoad opts c) []
  | .function f => by
      rw [printConstantLoad]
      exact settled_pure (printFunctionLoad_silent f) (printFunctionLoad_acts f)
  | .globalVariable g => by
      rw [printConstantLoad]
      exact IsPush.settled ⟨_, rfl, rfl⟩
  | .null => by
      rw [printConstantLoad]
      exact (isPush_printConstLoadInt _).settled
  | .int w i => by
      rw [printConstantLoad]
      exact (isPush_printConstLoadInt i).settled
  | .float f => by
      rw [printConstantLoad]
      exact (isPush_printConstLoadFloat f).settled
  | .double d => by
      rw [printConstantLoad]
      exact (isPush_printConstLoadDouble d).settled
  | .undef ty => by
      rw [printConstantLoad]
      exact (isPush_printConstLoadInt _).settled
  | .blockAddress block => by
      rw [printConstantLoad]
      exact settled_blockAddress block
  | .aggregateZero ty => by
      rw [printConstantLoad]
      exact (isPush_printConstLoadInt _).settled
  | .string bytes => by
      rw [printConstantLoad]
      exact (isPush_printConstLoadInt _).settled
  | .dataArray elem elems => by
      rw [printConstantLoad]
      exact (isPush_printConstLoadInt _).settled
  | .aggregate ty operands => by
      rw [printConstantLoad]
      exact (isPush_printConstLoadInt _).settled
  | .castExpr op ty c => by
      rw [printConstantLoad]
      have hcat : Settled env blocks
          (Emit.cat (printConstantLoad opts c) (pure (castCode op ty c.type))) ([] ++ []) :=
        (settled_printConstantLoad c).cat fun v =>
          settled_pure (silent_of_isUnary (castCode_isUnary _ _ _)) (castCode_acts _ _ _ v)
      exact hcat
  | .binaryExpr op left right => by
      rw [printConstantLoad]
      exact settled_binary (settled_printConstantLoad left) (settled_printConstantLoad right)
        (isBinary_arithmeticCode _ _ _)
  | .cmpExpr pred left right => by
      rw [printConstantLoad]
      exact settled_binary (settled_printConstantLoad left) (settled_printConstantLoad right)
        (isBinary_cmpCode _ _)
  | .gepExpr base types indices => by
      rw [printConstantLoad]
      have hcast : ∀ v, Settled env blocks (pure (castCode .inttoptr .pointer base.type)) [v] :=
        fun v => settled_pure (silent_of_isUnary (castCode_isUnary _ _ _)) (castCode_acts _ _ _ v)
      have heq : (do
          let b ← printConstantLoad opts base
          let i ← printConstantGep opts types indices
          return b ++ castCode .inttoptr .pointer base.type ++ i) =
          Emit.cat (printConstantLoad opts base)
            (Emit.cat (pure (castCode .inttoptr .pointer base.type))
              (printConstantGep opts types indices)) := by
        funext w
        simp only [Emit.cat, emit_bind, emit_pure, Option.bind_some, List.append_assoc]
        cases printConstantLoad opts base w with
        | none => rfl
        | some p => cases hi : printConstantGep opts types indices p.2 <;> simp [hi]
      rw [heq]
      have hcat : Settled env blocks _ ([] ++ []) := (settled_printConstantLoad base).cat fun v =>
        (hcast v).cat fun v => settled_printConstantGep types indices v
      exact hcat
  | .selectExpr cond trueVal falseVal => by
      rw [printConstantLoad]
      exact settled_select (settled_printConstantLoad cond) (settled_printConstantLoad trueVal)
        (settled_printConstantLoad falseVal)

theorem settled_printConstantGep : ∀ (types : List GepType) (indices : List Constant) (v : Val),
    Settled env blocks (printConstantGep opts types indices) [v]
  | [], _, v => by
      simp only [printConstantGep]
      exact settled_pure (by intro l hl; cases hl) ⟨_, .nil v⟩
  | _ :: _, [], v => by
      simp only [printConstantGep]
      exact settled_pure (by intro l hl; cases hl) ⟨_, .nil v⟩
  | ty :: types, index :: indices, v => by
      rw [printConstantGep]
      have hcat : Settled env blocks (Emit.cat
          (printGepIndex opts .jvm ty (some index) index.type (printConstantLoad opts index))
          (printConstantGep opts types indices)) ([v] ++ []) :=
        (settled_printGepIndex _ _ _ _ (settled_printConstantLoad index) v).cat fun v =>
          settled_printConstantGep types indices v
      exact hcat

end

end constants

end Llxvm.Backend
