import Llxvm.Backend.Writer
import Llxvm.Jvm.Operands
import Llxvm.Lib.SignExtend

/-!
# Values in local variables

What the loads and stores of the writer do, for values that have a local variable, and
the representation of integers there.
-/

namespace Llxvm.Backend

open Llxvm.Jvm

/-- The value has the local variable `n`. -/
def Writer.Has (w : Writer) (v : Local) (n : ℕ) : Prop := w.localVars.lookup v.id = some n

theorem getLocalVarNumber_of_has {w : Writer} {v : Local} {n : ℕ} (h : w.Has v n) :
    getLocalVarNumber v w = some (n, w) := by
  unfold Writer.Has at h
  simp only [getLocalVarNumber, bind, StateT.bind, get, getThe, MonadStateOf.get, StateT.get, pure,
    Option.bind, h]
  rfl

section options

variable {opts : GenerationOpts}

theorem printValueLoad_var {w : Writer} {v : Local} {n : ℕ} (h : w.Has v n) :
    printValueLoad opts (.var v) w =
      some ([.load (getTypePrefix v.ty true) (localForm opts n) n], w) := by
  simp only [printValueLoad, emit_bind, emit_pure, getLocalVarNumber_of_has h, Option.bind_some]

theorem printValueStore_eq {w : Writer} {v : Local} {n : ℕ} (h : w.Has v n) :
    printValueStore opts v w =
      some (truncateCode v.ty ++ [.store (getTypePrefix v.ty true) (localForm opts n) n], w) := by
  simp only [printValueStore, emit_bind, emit_pure, getLocalVarNumber_of_has h, Option.bind_some]

end options

/-! ## Truncation before a store -/

/-- The value that `printValueStore` leaves in a local of the type. -/
def normalize (ty : Ty) (v : Val) : Val :=
  match v with
  | .int x =>
      if getBitWidth ty false = 16 then .int ((x.setWidth 16).signExtend 32)
      else if getBitWidth ty false = 8 then .int ((x.setWidth 8).signExtend 32)
      else if getBitWidth ty false = 1 then .int (x &&& 1#32)
      else .int x
  | v => v

@[simp] theorem letter_normalize (ty : Ty) (v : Val) : (normalize ty v).letter = v.letter := by
  cases v with
  | int x =>
      unfold normalize
      split_ifs <;> rfl
  | long x => rfl
  | float x => rfl
  | double x => rfl
  | ref x => rfl

@[simp] theorem normalize_normalize (ty : Ty) (v : Val) :
    normalize ty (normalize ty v) = normalize ty v := by
  cases v with
  | int x =>
      unfold normalize
      split_ifs <;> simp [SignExtend.setWidth_signExtend, BitVec.and_assoc]
  | long x => rfl
  | float x => rfl
  | double x => rfl
  | ref x => rfl

theorem normalize_of_letter {v : Val} (h : v.letter ≠ .i) (ty : Ty) : normalize ty v = v := by
  cases v with
  | int x => simp [Val.letter] at h
  | long x => rfl
  | float x => rfl
  | double x => rfl
  | ref x => rfl

theorem truncateCode_of_letter {ty : Ty} (h : ty.letter ≠ .i) : truncateCode ty = [] := by
  cases ty with
  | int w =>
      have hw : intBitWidth w.bits false = 64 := by
        by_contra hne
        simp [Ty.letter, getTypePrefix, getTypeID, intBitWidth_expand, typeLetter, hne] at h
      simp [truncateCode, getBitWidth, hw]
  | float => rfl
  | double => rfl
  | pointer => rfl
  | array n elem => rfl
  | struct fields => rfl

variable {env : Env}

/-- The truncation acts on values of the kind of the type, and refuses others. -/
theorem acts_truncateCode {ty : Ty} {v : Val} (h : v.letter = ty.letter) :
    Acts env (truncateCode ty) [v] (some (.ok (normalize ty v))) := by
  by_cases hi : v.letter = .i
  · cases v with
    | int x =>
        have hbit : Acts env ([.const .i 1] ++ [.arith .i .and]) ([] ++ [.int x])
            (Delivery.andThen (some (.ok (.int 1#32))) (arith env .i .and (.int x))) :=
          (acts_const .i 1).append fun v _ => acts_arith .i .and (.int x) v
        unfold truncateCode normalize
        simp only
        split_ifs
        · exact acts_conv .i .s (.int x)
        · exact acts_conv .i .b (.int x)
        · exact hbit
        · exact .nil _
    | long x => simp [Val.letter] at hi
    | float x => simp [Val.letter] at hi
    | double x => simp [Val.letter] at hi
    | ref x => simp [Val.letter] at hi
  · rw [normalize_of_letter hi, truncateCode_of_letter (h ▸ hi)]
    exact .nil v

/-- A value of another kind does not get past the truncation and the store. -/
theorem run_store_of_letter_ne {ty : Ty} {v : Val} (h : v.letter ≠ ty.letter) (form : Form) (n : ℕ)
    (c : Config) :
    run env (truncateCode ty ++ [.store (getTypePrefix ty true) form n]) none (c.push v) =
      .stuck := by
  have hstore : run env [.store (getTypePrefix ty true) form n] none (c.push v) = .stuck := by
    simp only [run, step, Config.push]
    rw [if_neg (show ¬ v.letter = getTypePrefix ty true from h)]
  by_cases hi : ty.letter = .i
  · -- the truncating instructions only take an `int`
    have hconv : ∀ dest, dest = .s ∨ dest = .b → conv env .i dest v = none := by
      rintro dest (rfl | rfl) <;> cases v <;> first | rfl | exact (h hi.symm).elim
    have hand : arith env .i .and v (.int 1#32) = none := by
      cases v <;> first | rfl | exact (h hi.symm).elim
    unfold truncateCode
    simp only
    split_ifs
    · simp only [List.cons_append, List.nil_append, run, step, Config.push, hconv .s (.inl rfl)]
      rfl
    · simp only [List.cons_append, List.nil_append, run, step, Config.push, hconv .b (.inr rfl)]
      rfl
    · have hone : constant .i 1 = some (.int 1#32) := rfl
      simp only [List.cons_append, List.nil_append, run, step, Config.push, hone, Option.map_some,
        Config.produce, hand]
    · exact hstore
  · rw [truncateCode_of_letter hi]
    exact hstore

theorem run_store {ty : Ty} {v : Val} (h : v.letter = ty.letter) (form : Form) (n : ℕ)
    (c : Config) :
    run env (truncateCode ty ++ [.store (getTypePrefix ty true) form n]) none (c.push v) =
      .fall { c with locals := c.locals.set n (normalize ty v) } := by
  have hacts : Acts env (truncateCode ty) [v] (some (.ok (normalize ty v))) := acts_truncateCode h
  have htrunc := hacts c
  rw [run_append]
  simp only [Exit.Delivers, List.cons_append, List.nil_append] at htrunc
  have hpush : c.push v = { c with stack := v :: c.stack } := rfl
  rw [hpush, htrunc]
  simp only [Exit.andThen, run, step, Config.push]
  rw [if_pos (by rw [letter_normalize, h]; rfl)]

theorem run_load {ty : Ty} {n : ℕ} {v : Val} {c : Config} (hv : c.locals n = some v)
    (hty : v.letter = ty.letter) (form : Form) :
    run env [.load (getTypePrefix ty true) form n] none c = .fall (c.push v) := by
  simp only [run, step, hv]
  rw [if_pos (show v.letter = getTypePrefix ty true from hty)]
  rfl

/-! ## Representation of integers -/

/-- An `n` bit value in a local: `0` or `1` for `i1`, sign extended otherwise. -/
def represent {n : ℕ} (x : BitVec n) : Val :=
  if n = 1 then .int (x.setWidth 32)
  else if n ≤ 32 then .int (x.signExtend 32)
  else .long (x.signExtend 64)

end Llxvm.Backend
