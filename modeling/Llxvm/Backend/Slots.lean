import Llxvm.Backend.Locals

/-!
# The locals of a function

`printFunction` gives every argument and every instruction with a result a local variable,
of two slots for 64 bit types, and initialises it.  Slots of different values do not
overlap, so a store to one of them leaves the others alone.
-/

namespace Llxvm.Backend

open Llxvm.Jvm

/-- The number of the local variable of a value. -/
def Writer.slot (w : Writer) (v : Local) : ℕ := (w.localVars.lookup v.id).getD 0

/-- Every value has slots of its own. -/
structure Slots (w : Writer) (vars : List Local) : Prop where
  has : ∀ v ∈ vars, w.Has v (w.slot v)
  apart : ∀ u ∈ vars, ∀ v ∈ vars, u.id ≠ v.id →
    w.slot u + u.ty.registers ≤ w.slot v ∨ w.slot v + v.ty.registers ≤ w.slot u

theorem Ty.registers_pos (ty : Ty) : 0 < ty.registers := by
  rcases ty.letter_cases with ⟨-, h⟩ | ⟨-, h⟩ <;> omega

theorem Slots.congr {w w' : Writer} {vars : List Local} (h : Slots w vars)
    (heq : w'.localVars = w.localVars) : Slots w' vars := by
  have hslot : ∀ v, w'.slot v = w.slot v := fun v => by simp only [Writer.slot, heq]
  constructor
  · intro v hv
    have hhas := h.has v hv
    rw [Writer.Has, heq, hslot]
    exact hhas
  · intro u hu v hv hne
    simp only [hslot]
    exact h.apart u hu v hv hne

theorem Writer.Has.slot_eq {w : Writer} {v : Local} {n : ℕ} (h : w.Has v n) : w.slot v = n := by
  unfold Writer.Has at h
  simp [Writer.slot, h]

/-! ## Allocation -/

/-- The calls of `getLocalVarNumber` at the beginning of `printFunction`. -/
def allocateLocals : List Local → Emit Unit
  | [] => return ()
  | v :: vars => do
      let _ ← getLocalVarNumber v
      allocateLocals vars

/-! ## Valuations -/

/-- Locals in which every value of the function has a value of its type, as a store leaves
it; the second half of a wide value is unusable. -/
structure Valuation (w : Writer) (vars : List Local) (locals : Locals) : Prop where
  typed : ∀ v ∈ vars, ∃ x, locals (w.slot v) = some x ∧ x.letter = v.ty.letter ∧
    normalize v.ty x = x
  halves : ∀ k, (locals k).any Val.isWide → locals (k + 1) = none

theorem Valuation.congr {w w' : Writer} {vars : List Local} {locals : Locals}
    (h : Valuation w vars locals) (heq : w'.localVars = w.localVars) :
    Valuation w' vars locals where
  typed := by
    intro v hv
    have hslot : w'.slot v = w.slot v := by simp only [Writer.slot, heq]
    rw [hslot]
    exact h.typed v hv
  halves := h.halves

theorem isWide_iff_registers {v : Val} {ty : Ty} (h : v.letter = ty.letter) :
    v.isWide = true ↔ ty.registers = 2 := by
  rcases ty.letter_cases with ⟨hl | hl, hr⟩ | ⟨hl | hl, hr⟩ <;> rw [hl] at h <;> rw [hr] <;>
    cases v <;> simp_all [Val.letter, Val.isWide]

section set

variable {w : Writer} {vars : List Local} {locals : Locals} {v : Local} {x : Val}

/-- A store to a local changes its own slots only. -/
theorem Valuation.set_of_not_mem (h : Valuation w vars locals) (hv : v ∈ vars)
    (hx : x.letter = v.ty.letter) {k : ℕ} (hk : ¬ (w.slot v ≤ k ∧ k < w.slot v + v.ty.registers)) :
    locals.set (w.slot v) x k = locals k := by
  have hpos := v.ty.registers_pos
  apply Locals.set_of_ne
  · omega
  · intro hwide
    rw [isWide_iff_registers hx] at hwide
    omega
  · intro hwide heq
    obtain ⟨y, hy, -⟩ := h.typed v hv
    have hnone := h.halves k hwide
    rw [heq, hy] at hnone
    cases hnone

theorem Valuation.set_of_ne (h : Valuation w vars locals) (hs : Slots w vars) (hv : v ∈ vars)
    (hx : x.letter = v.ty.letter) {u : Local} (hu : u ∈ vars) (hne : u.id ≠ v.id) :
    locals.set (w.slot v) x (w.slot u) = locals (w.slot u) := by
  apply h.set_of_not_mem hv hx
  have hpos := u.ty.registers_pos
  have hapart := hs.apart u hu v hv hne
  omega

theorem Valuation.set (h : Valuation w vars locals) (hs : Slots w vars)
    (hids : ∀ u ∈ vars, ∀ v ∈ vars, u.id = v.id → u = v) (hv : v ∈ vars)
    (hx : x.letter = v.ty.letter) (hnorm : normalize v.ty x = x) :
    Valuation w vars (locals.set (w.slot v) x) := by
  constructor
  · intro u hu
    by_cases hid : u.id = v.id
    · obtain rfl := hids u hu v hv hid
      exact ⟨x, Locals.set_self _ _ _, hx, hnorm⟩
    · rw [h.set_of_ne hs hv hx hu hid]
      exact h.typed u hu
  · intro k hk
    unfold Locals.set at hk ⊢
    have hhalf := h.halves k
    split_ifs at hk ⊢ <;> simp_all

end set

end Llxvm.Backend
