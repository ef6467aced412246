import Llxvm.Backend.Emission

/-!
# The count of local variables

For the Krakatau assembler the number of local variables is printed before the method, from a pass
of its own over the instructions.  It counts the values of instructions only, and adds ten.
-/

namespace Llxvm.Backend

open Llxvm.Jvm

/-! ## The pass -/

/-- A value that has not been met adds its registers. -/
def examineVar (v : Local) : StateM (List ℕ) ℕ := do
  let vars ← get
  if v.id ∈ vars then return 0
  else
    set (v.id :: vars)
    return if getBitWidth v.ty false = 64 then 2 else 1

def examineVars : List Local → StateM (List ℕ) ℕ
  | [] => return 0
  | v :: vs => do
      let vlen ← examineVar v
      let cnt ← examineVars vs
      return vlen + cnt

/-- The loop over the instructions examines their values, and the parameters of byte swaps. -/
def getLocalsCount (f : FunctionDef) : ℕ := ((examineVars f.variables).run []).1 + 10

theorem run_examineVar (v : Local) (vars : List ℕ) : (examineVar v).run vars =
    if v.id ∈ vars then (0, vars) else (v.ty.registers, v.id :: vars) := by
  by_cases hv : v.id ∈ vars
  · simp [examineVar, hv]
    rfl
  · simp [examineVar, hv, Ty.registers]
    rfl

theorem examineVars_eq (vs : List Local) (vars : List ℕ) :
    ((examineVars vs).run vars).1 = freshRegisters vars vs := by
  induction vs generalizing vars with
  | nil => rfl
  | cons v vs ih =>
      have hcons : ((examineVars (v :: vs)).run vars).1 = ((examineVar v).run vars).1 +
          ((examineVars vs).run ((examineVar v).run vars).2).1 := rfl
      rw [hcons, ih, run_examineVar, freshRegisters]
      split_ifs
      · exact Nat.zero_add _
      · rfl

/-! ## What is left out -/

/-- The registers that the pass does not see: those of the arguments and of the pointer to the
variadic ones, one for each call of `setjmp` and one for the caught `Jump`, and those of what gets a
local variable when it is used. -/
def FunctionDef.uncounted (f : FunctionDef) : ℕ :=
  (f.args.map fun v => v.ty.registers).sum + (if f.ref.type.isVarArg then 1 else 0) + f.numJumps +
    (if f.numJumps = 0 then 0 else 1) +
    freshRegisters (f.locals.map Local.id) (f.bodyOps.filterMap Operation.register)

theorem extra_eq {w : Writer} {seen : List ℕ}
    (h : ∀ id, id ∈ seen ↔ (w.localVars.lookup id).isSome) (ops : List Operation) :
    extra w ops = freshRegisters seen (ops.filterMap Operation.register) := by
  induction ops generalizing w seen with
  | nil => rfl
  | cons op ops ih =>
      have hafter : ∀ id, ((w.after op).localVars.lookup id).isSome ↔
          (w.localVars.lookup id).isSome ∨ ∃ v, op.register = some v ∧ v.id = id := by
        intro id
        rw [show w.after op = [op].foldl Writer.after w from rfl, isSome_lookup_foldl_after]
        simp only [List.mem_singleton, exists_eq_left]
      rw [extra, Writer.fresh]
      cases hregister : op.register with
      | none =>
          rw [List.filterMap_cons_none hregister, Nat.zero_add]
          exact ih fun id => by simp [hafter, h, hregister]
      | some v =>
          rw [List.filterMap_cons_some hregister, freshRegisters]
          simp only [← h]
          split_ifs with hv
          · rw [Nat.zero_add]
            refine ih fun id => ?_
            simp only [hafter, hregister, Option.some.injEq, exists_eq_left', ← h]
            exact ⟨.inl, fun hid => hid.elim (fun hid => hid) fun hid => hid ▸ hv⟩
          · congr 1
            refine ih fun id => ?_
            simp only [hafter, hregister, Option.some.injEq, exists_eq_left', ← h, List.mem_cons]
            rw [or_comm, eq_comm]

/-- The printed count covers the local variables of a method exactly if those that the pass does not
see are at most ten. -/
theorem limitLocals_le_iff (opts : GenerationOpts) (skip : Bool) (f : FunctionDef)
    (curBasicblockMapId maxOperands : ℕ) (w w' : Writer) (m : MethodText) (hf : f.WellFormed)
    (hargs : ∀ u ∈ f.args, ∀ v ∈ f.variables, u.id ≠ v.id) (hw : w.Reachable opts)
    (hprint : printFunction opts skip f curBasicblockMapId maxOperands w = some (m, w')) :
    m.limitLocals ≤ getLocalsCount f ↔ f.uncounted ≤ 10 := by
  obtain ⟨vaArgNum, w₁, w₂, hparts, -, -⟩ := printFunction_parts hf hw.ready.2 hprint
  have hsame : SameLocals { w₁ with lastLabel := some .beginMethod } w₁ := ⟨rfl, rfl⟩
  have hbody : w₂.usedRegisters = w₁.usedRegisters + f.numJumps + extra w₁ f.bodyOps := by
    rw [hparts.body.locals.2, ← hf.numSetjmp_bodyOps, ← usedRegisters_foldl]
    exact (hsame.foldl_after f.bodyOps).2.symm
  have hextra : extra w₁ f.bodyOps =
      freshRegisters (f.locals.map Local.id) (f.bodyOps.filterMap Operation.register) :=
    extra_eq (fun id => by rw [hparts.begun.lookup, List.mem_map]) f.bodyOps
  have hvalues :
      freshRegisters (f.args.map Local.id) f.variables = freshRegisters [] f.variables := by
    refine freshRegisters_congr fun v hv => iff_of_false (fun hmem => ?_) List.not_mem_nil
    obtain ⟨u, hu, heq⟩ := List.mem_map.mp hmem
    exact hargs u hu v hv heq
  rw [hparts.limitLocals, hbody, hextra, hparts.begun.used, hvalues, getLocalsCount, examineVars_eq,
    FunctionDef.uncounted]
  omega

theorem limitLocals_le_setjmp : ∃ m w',
    printFunction ⟨true, false, false, false⟩ false (setjmpFunction [setjmpInst]) 0 2 .start =
      some (m, w') ∧ m.limitLocals ≤ getLocalsCount (setjmpFunction [setjmpInst]) := by
  have hprint : printFunction ⟨true, false, false, false⟩ false (setjmpFunction [setjmpInst]) 0 2
      .start = some (_, _) := rfl
  have hargs : ∀ u ∈ (setjmpFunction [setjmpInst]).args,
      ∀ v ∈ (setjmpFunction [setjmpInst]).variables, u.id ≠ v.id := by
    have hvariables : (setjmpFunction [setjmpInst]).variables = [⟨1, .int .w32⟩] := rfl
    rw [hvariables]
    simp [setjmpFunction]
  have huncounted : (setjmpFunction [setjmpInst]).uncounted = 3 := rfl
  exact ⟨_, _, hprint, (limitLocals_le_iff ⟨true, false, false, false⟩ false
    (setjmpFunction [setjmpInst]) 0 2 .start _ _ (setjmpFunction_wellFormed (.inr (.inr rfl)))
    hargs (.start rfl rfl) hprint).mpr (by rw [huncounted]; decide)⟩

/-- A function with six arguments of 64 bits, which only returns. -/
def wideFunction : FunctionDef where
  ref := ⟨"f", ⟨List.replicate 6 (.int .w64), false, none⟩, false⟩
  hasLocalLinkage := false
  args := (List.range 6).map fun i => ⟨i, .int .w64⟩
  blocks := [⟨0, "", [], [⟨none, .ret none⟩]⟩]
  loopInfo := .empty

/-- The arguments take twelve local variables, but the count is ten. -/
theorem limitLocals_wideFunction : ∃ m w',
    printFunction ⟨true, false, false, false⟩ false wideFunction 0 2 .start = some (m, w') ∧
      m.limitLocals = 12 ∧ getLocalsCount wideFunction = 10 := by
  have hlimit : (printFunction ⟨true, false, false, false⟩ false wideFunction 0 2 .start).map
      (fun r => r.1.limitLocals) = some 12 := by decide +kernel
  obtain ⟨⟨m, w'⟩, hprint, hm⟩ := Option.map_eq_some_iff.mp hlimit
  exact ⟨m, w', hprint, hm, rfl⟩

end Llxvm.Backend
