import Llxvm.Backend.ConstantLoad
import Llxvm.Backend.Slots

/-!
# Loads of values

What `printValueLoad` leaves on the stack, for the variables of a function and for
constants.
-/

namespace Llxvm.Backend

open Llxvm.Jvm

/-- The variable is one of the function. -/
def Value.In (vars : List Local) : Value → Prop
  | .var v => v ∈ vars
  | .const _ => True

/-- The value that a load of `v` leaves. -/
def Loads (env : Env) (opts : GenerationOpts) (w : Writer) (v : Value) (c : Config) (x : Val) :
    Prop :=
  ∃ is w', printValueLoad opts v w = some (is, w') ∧ run env is none c = .fall (c.push x)

/-- A variable, or a constant that is loaded as a value of its type. -/
def Value.Good (env : Env) (opts : GenerationOpts) (blocks : List (String × ℕ)) : Value → Prop
  | .var _ => True
  | .const k => ∃ x, Uniform env blocks (printConstantLoad opts k) [] (some (.ok x)) ∧
      x.letter = k.type.letter

section values

variable {env : Env} {opts : GenerationOpts} {w : Writer} {vars : List Local} {c : Config}

theorem Loads.unique {v : Value} {x y : Val} (hx : Loads env opts w v c x)
    (hy : Loads env opts w v c y) : x = y := by
  obtain ⟨is, w', hprint, hrun⟩ := hx
  obtain ⟨is', w'', hprint', hrun'⟩ := hy
  cases hprint.symm.trans hprint'
  rw [hrun] at hrun'
  simpa [Config.push] using hrun'

/-- A constant has one value, whenever it is loaded. -/
theorem loads_const_iff {k : Constant} {r : Delivery} (hw : w.Fresh)
    (hr : Uniform env w.basicblockMap (printConstantLoad opts k) [] r) (x : Val) :
    Loads env opts w (.const k) c x ↔ r = some (.ok x) := by
  obtain ⟨is, w', hprint, -, hacts⟩ := hr w hw rfl
  have hrun := hacts c
  constructor
  · rintro ⟨is', w'', hprint', hfall⟩
    cases hprint.symm.trans hprint'
    have hstack : ({ c with stack := [] ++ c.stack } : Config) = c := rfl
    rw [hstack, hfall] at hrun
    match r, hrun with
    | some (.ok y), hrun =>
        simp only [Exit.Delivers, Config.push, Exit.fall.injEq, Config.mk.injEq, List.cons.injEq,
          true_and, and_true] at hrun
        rw [hrun]
    | some (.error e), ⟨c', hrun⟩ => cases hrun
    | none, hrun => cases hrun
  · rintro rfl
    exact ⟨is, w', hprint, hrun⟩

theorem loads_var_iff (hs : Slots w vars) (hv : Valuation w vars c.locals) {v : Local}
    (hmem : v ∈ vars) (x : Val) :
    Loads env opts w (.var v) c x ↔ c.locals (w.slot v) = some x := by
  obtain ⟨y, hy, hletter, -⟩ := hv.typed v hmem
  have hprint : printValueLoad opts (.var v) w = _ := printValueLoad_var (hs.has v hmem)
  have hrun :
      run env [.load (getTypePrefix v.ty true) (localForm opts (w.slot v)) (w.slot v)] none c =
      .fall (c.push y) := run_load hy hletter _
  rw [hy]
  constructor
  · rintro ⟨is, w', hprint', hfall⟩
    cases hprint.symm.trans hprint'
    rw [hrun] at hfall
    simpa [Config.push] using hfall
  · intro heq
    cases heq
    exact ⟨_, _, hprint, hrun⟩

theorem good_of_loads (hw : w.Fresh) {v : Value} {x : Val} (hload : Loads env opts w v c x)
    (hletter : x.letter = v.type.letter) : v.Good env opts w.basicblockMap := by
  cases v with
  | var v => trivial
  | const k =>
      obtain ⟨is, w', hprint, -⟩ := id hload
      have hprint' : printConstantLoad opts k w = some (is, w') := hprint
      have hsettled : Settled env w.basicblockMap (printConstantLoad opts k) [] :=
        settled_printConstantLoad k
      obtain ⟨r, hr⟩ := hsettled w hw rfl (by rw [hprint']; rfl)
      obtain rfl := (loads_const_iff hw hr x).mp hload
      exact ⟨x, hr, hletter⟩

theorem emitted_printValueLoad (hw : w.Fresh) (hs : Slots w vars) {v : Value} (hin : v.In vars)
    {load : Code} {w₁ : Writer} (hload : printValueLoad opts v w = some (load, w₁)) :
    Emitted w w₁ load := by
  cases v with
  | var v =>
      rw [printValueLoad_var (hs.has v hin)] at hload
      cases hload
      exact .refl w (by intro l hl; simp at hl)
  | const k =>
      have hload' : printConstantLoad opts k w = some (load, w₁) := hload
      have hsettled : Settled .plain w.basicblockMap (printConstantLoad opts k) [] :=
        settled_printConstantLoad k
      obtain ⟨r, hr⟩ := hsettled w hw rfl (by rw [hload']; rfl)
      obtain ⟨is, w', hprint, hemit, -⟩ := hr w hw rfl
      cases hload'.symm.trans hprint
      exact hemit

/-- Wherever and whenever the value is loaded while the locals are the given ones, the load
leaves `x`. -/
def Operand (env : Env) (opts : GenerationOpts) (w : Writer) (locals : Locals) (v : Value)
    (x : Val) :
    Prop :=
  ∀ w₁ : Writer, w₁.Fresh → w₁.localVars = w.localVars → w₁.basicblockMap = w.basicblockMap →
    ∃ is w₂, printValueLoad opts v w₁ = some (is, w₂) ∧ Emitted w₁ w₂ is ∧
      ∀ c : Config, c.locals = locals → run env is none c = .fall (c.push x)

theorem operand_var {locals : Locals} {v : Local} {n : ℕ} (hhas : w.Has v n) {x : Val}
    (hx : locals n = some x) (hletter : x.letter = v.ty.letter) :
    Operand env opts w locals (.var v) x := by
  intro w₁ _ hvars _
  have hhas₁ : w₁.Has v n := by
    rw [Writer.Has, hvars]
    exact hhas
  exact ⟨_, w₁, printValueLoad_var hhas₁, .refl w₁ (by intro l hl; simp at hl),
    fun c hc => run_load (hc ▸ hx) hletter _⟩

theorem exists_operand {locals : Locals} (hs : Slots w vars) (hv : Valuation w vars locals)
    {v : Value}
    (hin : v.In vars) (hgood : v.Good env opts w.basicblockMap) :
    ∃ x, Operand env opts w locals v x ∧ x.letter = v.type.letter := by
  cases v with
  | var v =>
      obtain ⟨x, hx, hletter, -⟩ := hv.typed v hin
      exact ⟨x, operand_var (hs.has v hin) hx hletter, hletter⟩
  | const k =>
      obtain ⟨x, hx, hletter⟩ := hgood
      refine ⟨x, fun w₁ hw₁ _ hblocks => ?_, hletter⟩
      obtain ⟨is, w₂, hprint, hemit, hacts⟩ := hx w₁ hw₁ hblocks
      exact ⟨is, w₂, hprint, hemit, fun c _ => hacts c⟩

end values

end Llxvm.Backend
