import Llxvm.Backend.OperationRuns

/-!
# Edges between blocks

A branch runs the copies for the PHI nodes of the block that it goes to.  They give the nodes the
values that LLVM assigns at once, unless a node is copied that an earlier copy has changed.
-/

namespace Llxvm.Backend

open Llxvm.Jvm Llxvm.Runtime

/-! ## The copies of an edge -/

section edge

variable {env : Env} {opts : GenerationOpts} {f : Function} {w w' : Writer} {c : Config}

/-- Of the code of a branch to the block `s`, only the copies for its PHI nodes are run before the
jump. -/
def TakesEdge (env : Env) (opts : GenerationOpts) (f : Function) (w : Writer) (src s : ℕ)
    (is : Code) (c c₀ : Config) : Prop :=
  ∃ copies w₁ w₂, Keeping w w₁ ∧ printPHICopy opts f src s w₁ = some (copies, w₂) ∧
    ∀ c', run env copies none c₀ = .fall c' → run env is none c = .jump (.block s) c'

theorem takesEdge_printBranch {w₁ : Writer} (hw₁ : Keeping w w₁) {src s : ℕ} {is : Code}
    (hprint : printBranch opts f src s w₁ = some (is, w')) :
    TakesEdge env opts f w src s is c c := by
  obtain ⟨copies, w₂, hcopies, h₂⟩ := emit_bind_eq_some hprint
  cases h₂
  refine ⟨copies, w₁, w', hw₁, hcopies, fun c' hrun => ?_⟩
  rw [run_append_of_fall hrun]
  rfl

variable (hf : f.WellFormed) (hs : Slots w f.vars) (hv : Valuation w f.vars c.locals)

include hf hs hv

theorem emitted_printPHICopy {w₁ w₂ : Writer} (hw₁ : Keeping w w₁) {src s : ℕ} {copies : Code}
    (hprint : printPHICopy opts f src s w₁ = some (copies, w₂)) : Emitted w₁ w₂ copies :=
  (run_printPHICopies .plain hf.ids (hf.phis src s) hprint hw₁.fresh hw₁.localVars
    hw₁.basicblockMap hs hv).1

theorem takesEdge_printBranchIf {w₀ : Writer} (hw₀ : Keeping w w₀) {src t e : ℕ} {is : Code}
    (b : BitVec 32) (hprint : printBranchIf opts f src t (some e) w₀ = some (is, w')) :
    TakesEdge env opts f w src (if b = 0#32 then e else t) is (c.push (.int b)) c := by
  rw [printBranchIf] at hprint
  by_cases hte : t = e
  · subst hte
    rw [if_pos rfl] at hprint
    rw [ite_self]
    obtain ⟨br, w₁, hbr, h₁⟩ := emit_bind_eq_some hprint
    cases h₁
    exact takesEdge_printBranch (c := c) hw₀ hbr
  rw [if_neg hte] at hprint
  obtain ⟨l, w₁, hl, hprint₁⟩ := emit_bind_eq_some hprint
  obtain ⟨br, w₂, hbr, hprint₂⟩ := emit_bind_eq_some hprint₁
  obtain ⟨copies, w₃, hcopies, hprint₃⟩ := emit_bind_eq_some hprint₂
  clear hprint hprint₁ hprint₂
  rw [printFalseCopies_eq] at hcopies
  obtain ⟨br', w₂', hbr', hvars₂, hblocks₂, huid₂, hlast₂, hrunbr⟩ := printIfne_eq env opts l w₁
  cases hbr.symm.trans hbr'
  rcases trueLabel_eq f t w₀ with ⟨hphis, hlabel⟩ | ⟨hphis, hlabel⟩
  · cases hl.symm.trans hlabel
    rw [if_pos (List.isEmpty_iff.mpr hphis)] at hprint₃
    cases hprint₃
    have hw₂ : Keeping w w₂ := ⟨fun l hl u hu => huid₂ ▸ hw₀.fresh l (hlast₂ ▸ hl) u hu,
      hvars₂.trans hw₀.localVars, hblocks₂.trans hw₀.basicblockMap⟩
    have hemit := emitted_printPHICopy hf hs hv hw₂ hcopies
    by_cases hb : b = 0#32
    · rw [if_pos hb]
      refine ⟨copies, w₂, _, hw₂, hcopies, fun c' hrun => ?_⟩
      rw [hb, List.append_assoc, run_append_of_fall (hrunbr c).1, run_append_of_fall hrun]
      rfl
    · -- there is nothing to copy for the true block
      rw [if_neg hb]
      refine ⟨[], w₀, w₀, hw₀, by rw [printPHICopy, hphis]; rfl, fun c' hrun => ?_⟩
      cases hrun
      rw [List.append_assoc, run_append, (hrunbr c).2 b hb (by simp)]
      exact run_skip (by simp [gotoToken, hemit.label_not_mem (l := .block t) (by simp)]) c
  · cases hl.symm.trans hlabel
    rw [if_neg (by simpa using hphis)] at hprint₃
    obtain ⟨label, w₄, hlab, hprint₄⟩ := emit_bind_eq_some hprint₃
    obtain ⟨trueCopies, w₅, htrue, hprint₅⟩ := emit_bind_eq_some hprint₄
    cases hprint₅
    have hw₂ : Keeping w w₂ := ⟨fun l hl u hu =>
      huid₂ ▸ (hw₀.fresh l (hlast₂ ▸ hl) u hu).trans (Nat.le_succ _),
      hvars₂.trans hw₀.localVars, hblocks₂.trans hw₀.basicblockMap⟩
    have hemit := emitted_printPHICopy hf hs hv hw₂ hcopies
    -- the label in front of the copies for the true block is new
    have hlast : w₂.lastLabel ≠ some (.phi t (w₀.uid + 1)) := by
      intro heq
      have hle := hw₀.fresh _ (hlast₂ ▸ heq) _ rfl
      omega
    rw [printLabel_of_ne (hemit.last_ne hlast (by simp))] at hlab
    cases hlab
    have hw₃ := hw₂.emitted hemit
    have hw₄ : Keeping w { w₃ with lastLabel := some (.phi t (w₀.uid + 1)) } := by
      refine ⟨fresh_of_label fun u hu => ?_, hw₃.localVars, hw₃.basicblockMap⟩
      cases hu
      exact huid₂.symm.trans_le hemit.uid_le
    have hemit₅ := emitted_printPHICopy hf hs hv hw₄ htrue
    by_cases hb : b = 0#32
    · rw [if_pos hb]
      refine ⟨copies, w₂, w₃, hw₂, hcopies, fun c' hrun => ?_⟩
      simp only [hb, List.append_assoc]
      rw [run_append_of_fall (hrunbr c).1, run_append_of_fall hrun]
      exact run_skip (by simp [gotoToken, hemit₅.label_not_mem (l := .block e) (by simp)]) c'
    · rw [if_neg hb]
      refine ⟨trueCopies, _, _, hw₄, htrue, fun c' hrun => ?_⟩
      have hskip : run env (copies ++ [gotoToken opts (.block e)]) (some (.phi t (w₀.uid + 1))) c =
          .jump (.phi t (w₀.uid + 1)) c :=
        run_skip (by simp [gotoToken, hemit.label_not_mem (l := .phi t (w₀.uid + 1)) (by simp)]) c
      simp only [List.append_assoc]
      rw [run_append, (hrunbr c).2 b hb (by simp), ← List.append_assoc copies, Exit.andThen,
        run_append, hskip, Exit.andThen, List.cons_append, run, if_pos rfl, List.nil_append,
        run_append_of_fall hrun]
      rfl

end edge

/-! ## Values behind an edge -/

/-- Constants on the edge are copied as their values, and no value is copied from a PHI node that an
earlier copy has changed. -/
structure EdgeExact (env : Env) (values : Values) (src : ℕ) (phis : List Phi) : Prop where
  constants : ∀ p ∈ phis, ∀ k, p.copied src = some (.const k) →
    (Value.const k).Storable env ∧ (llvmConstant env k).isSome
  ordered : phis.Pairwise fun p q => ∀ v, p.copied src = some v →
    ∀ u, q.copied src = some (.var u) → u.id = p.result.id →
      ∃ x, llvmOperand env values v = some x ∧ values u.id = some x

section values

variable {env : Env} {opts : GenerationOpts} {f : Function} {w : Writer} {values : Values}
  {c : Config} (hldc : opts.wideLdc = false) (hf : f.WellFormed)
  (held : values.Held f.vars w c.locals) (hw : w.Fresh)

theorem Operand.loads {v : Value} {y : Val} (h : Operand env opts w c.locals v y) (hw : w.Fresh) :
    Loads env opts w v c y := by
  obtain ⟨is, w', hprint, -, hrun⟩ := h w hw rfl rfl
  exact ⟨is, w', hprint, hrun c rfl⟩

include hldc held hw

theorem loads_of_storable {v : Value} (hin : v.In f.vars) (hstorable : v.Storable env)
    {x : LlvmVal} (hx : llvmOperand env values v = some x) :
    ∃ y, Loads env opts w v c y ∧ x.StoredFrom y ∧ x.type = v.type := by
  obtain ⟨y, hoperand, hstored, hty⟩ := operand_of_storable hldc held hin hstorable hx
  exact ⟨y, hoperand.loads hw, hstored, hty⟩

include hf

theorem EdgeExact.sequenced {src s : ℕ} (h : EdgeExact env values src (f.phis s)) :
    Sequenced env opts w src (f.phis s) c := by
  have hincoming : ∀ p ∈ f.phis s, ∀ v, p.copied src = some v →
      v.In f.vars ∧ v.type = p.result.ty := fun p hp v hv =>
    hf.incoming s p hp src v (Option.eq_some_of_filter_eq_some hv)
  refine ⟨fun p hp v hv => ?_, h.ordered.imp_of_mem ?_⟩
  · obtain ⟨hin, -⟩ := hincoming p hp v hv
    cases v with
    | var u =>
        obtain ⟨y, hy, hletter, -⟩ := held.valuation.typed u hin
        exact ⟨y, (loads_var_iff held.slots held.valuation hin y).mpr hy, hletter⟩
    | const k =>
        obtain ⟨hstorable, hsome⟩ := h.constants p hp k hv
        obtain ⟨x, hx⟩ := Option.isSome_iff_exists.mp hsome
        obtain ⟨y, hload, hstored, hty⟩ := loads_of_storable hldc held hw hin hstorable hx
        exact ⟨y, hload, hty ▸ hstored.1⟩
  · -- the copy leaves the PHI node as it was
    intro p q hp hq hordered v hv u hu hid y hload
    obtain ⟨x, hx, hold⟩ := hordered v hv u hu hid
    obtain ⟨hin, hvty⟩ := hincoming p hp v hv
    have hstorable : v.Storable env := by
      cases v with
      | var u => trivial
      | const k => exact (h.constants p hp k hv).1
    obtain ⟨y', hload', hstored, hty⟩ := loads_of_storable hldc held hw hin hstorable hx
    obtain rfl := hload.unique hload'
    obtain ⟨-, hslot⟩ := held.value p.result (hf.result_mem s p hp) x (hid ▸ hold)
    rw [hslot, ← hvty, ← hty, hstored.2]

/-- The copies of an edge give the PHI nodes their values. -/
theorem EdgeExact.enter {src s : ℕ} (h : EdgeExact env values src (f.phis s)) {w₁ w₂ : Writer}
    (hw₁ : Keeping w w₁) {copies : Code}
    (hprint : printPHICopy opts f src s w₁ = some (copies, w₂)) :
    ∃ c', run env copies none c = .fall c' ∧ c'.stack = c.stack ∧ c'.memory = c.memory ∧
      (values.enter env (f.phis s) src).Held f.vars w c'.locals := by
  have hsequenced := h.sequenced hldc hf held hw
  obtain ⟨c', hrun, hassign⟩ := (printPHICopies_iff hf.ids (hf.phis src s) (hf.results s) hprint
    hw₁.fresh hw hw₁.localVars hw₁.basicblockMap held.slots held.valuation).mpr hsequenced
  have hgood : ∀ p ∈ f.phis s, ∀ v, p.copied src = some v → v.Good env opts w.basicblockMap := by
    intro p hp v hv
    obtain ⟨y, hload, hletter⟩ := hsequenced.loads p hp v hv
    exact good_of_loads hw hload hletter
  obtain ⟨c'', hrun', horder⟩ := (run_printPHICopies env hf.ids (hf.phis src s) hprint hw₁.fresh
    hw₁.localVars hw₁.basicblockMap held.slots held.valuation).2.1 hgood
  cases hrun.symm.trans hrun'
  refine ⟨c', hrun, hassign.stack, hassign.memory, held.slots, horder.typed, fun v hv x hx => ?_⟩
  unfold Values.enter at hx
  cases hfind : (f.phis s).find? fun p => p.result.id = v.id with
  | none =>
      rw [hfind] at hx
      obtain ⟨hty, hslot⟩ := held.value v hv x hx
      refine ⟨hty, ?_⟩
      rw [hassign.unchanged (w.slot v) fun p hp => ?_, hslot]
      have hne : v.id ≠ p.result.id := fun heq =>
        List.find?_eq_none.mp hfind p hp (decide_eq_true heq.symm)
      have hapart := held.slots.apart v hv p.result (hf.result_mem s p hp) hne
      have hpos := v.ty.registers_pos
      omega
  | some p =>
      rw [hfind] at hx
      have hp := List.mem_of_find?_eq_some hfind
      have hid : p.result.id = v.id := by simpa using List.find?_some hfind
      obtain rfl := hf.ids _ (hf.result_mem s p hp) v hv hid
      obtain ⟨u, hu, hx⟩ := Option.bind_eq_some_iff.mp hx
      obtain ⟨hin, huty⟩ := hf.incoming s p hp src u hu
      have hundef : u.isUndef = false := by
        cases u with
        | var u => rfl
        | const k =>
            cases k with
            | undef ty => cases hx
            | _ => rfl
      have hcopied : p.copied src = some u := by simp [Phi.copied, hu, hundef]
      have hstorable : u.Storable env := by
        cases u with
        | var u => trivial
        | const k => exact (h.constants p hp k hcopied).1
      obtain ⟨y, hload, hstored, hty⟩ := loads_of_storable hldc held hw hin hstorable hx
      obtain ⟨y', hload', hslot⟩ := hassign.assigned p hp u hcopied
      obtain rfl := hload.unique hload'
      refine ⟨hty.trans huty, ?_⟩
      rw [hslot, ← huty, ← hty, hstored.2]

end values

end Llxvm.Backend
