import Llxvm.Backend.Registers

/-!
# The beginning of a method

`printFunction` gives local variables to the arguments, the pointer to the variadic arguments and
the results of the instructions, in this order, and initialises them.
-/

namespace Llxvm.Backend

open Llxvm.Jvm

/-! ## Allocation -/

theorem getLocalVarNumber_eq (v : Local) (w : Writer) :
    getLocalVarNumber v w = some ((w.touch v).slot v, w.touch v) := by
  simp only [getLocalVarNumber, emit_bind, emit_get, Option.bind_some, Writer.touch, Writer.slot]
  cases hlookup : w.localVars.lookup v.id with
  | some n => simp [emit_pure, hlookup]
  | none =>
      simp only [List.lookup_cons_self, Option.getD_some]
      rfl

theorem touch_has (w : Writer) (v : Local) : (w.touch v).Has v ((w.touch v).slot v) :=
  (getLocalVarNumber_touch (getLocalVarNumber_eq v w)).2

theorem allocateLocals_eq (vars : List Local) (w : Writer) :
    allocateLocals vars w = some ((), vars.foldl Writer.touch w) := by
  induction vars generalizing w with
  | nil => rfl
  | cons v vars ih =>
      simp only [allocateLocals, emit_bind, getLocalVarNumber_eq, Option.bind_some, ih,
        List.foldl_cons]

/-- Values without local variables get the next ones, in their order. -/
theorem foldl_touch_fresh {vars : List Local} (hids : (vars.map Local.id).Nodup) {w : Writer}
    (hnone : ∀ v ∈ vars, w.localVars.lookup v.id = none) :
    (vars.foldl Writer.touch w).usedRegisters =
        w.usedRegisters + (vars.map fun v => v.ty.registers).sum ∧
      ∀ k v, vars[k]? = some v → (vars.foldl Writer.touch w).Has v
        (w.usedRegisters + ((vars.take k).map fun v => v.ty.registers).sum) := by
  induction vars generalizing w with
  | nil => simp
  | cons v vars ih =>
      obtain ⟨hv, hids⟩ := List.nodup_cons.mp hids
      have htouch : w.touch v = { w with
          localVars := (v.id, w.usedRegisters) :: w.localVars
          usedRegisters := w.usedRegisters + v.ty.registers } := by
        unfold Writer.touch
        rw [hnone v List.mem_cons_self]
      obtain ⟨hused, hhas⟩ := ih (w := w.touch v) hids (by
        intro u hu
        have hne : u.id ≠ v.id := fun heq => hv (heq ▸ List.mem_map_of_mem hu)
        rw [htouch, List.lookup_cons, beq_eq_false_iff_ne.mpr hne]
        exact hnone u (List.mem_cons_of_mem v hu))
      rw [htouch] at hused hhas
      simp only [List.foldl_cons, htouch, List.map_cons, List.sum_cons]
      refine ⟨by rw [hused, Nat.add_assoc], fun k u hu => ?_⟩
      cases k with
      | zero =>
          obtain rfl : v = u := by simpa using hu
          exact Writer.Has.foldl_touch (by simp [Writer.Has]) vars
      | succ k =>
          have h := hhas k u (by simpa using hu)
          rwa [List.take_succ_cons, List.map_cons, List.sum_cons, ← Nat.add_assoc]

/-! ## Initialisation -/

theorem later_foldl_touch (w : Writer) (vars : List Local) :
    Later w (vars.foldl Writer.touch w) := by
  induction vars generalizing w with
  | nil => exact .refl w
  | cons v vars ih => exact (later_touch w v).trans (ih (w.touch v))

theorem lastLabel_foldl_touch (w : Writer) (vars : List Local) :
    (vars.foldl Writer.touch w).lastLabel = w.lastLabel := by
  induction vars generalizing w with
  | nil => rfl
  | cons v vars ih => rw [List.foldl_cons, ih, lastLabel_touch]

/-- Constants that are stored in local variables. -/
def storeConstants (vars : List (Prefix × Form × ℕ)) : Code :=
  vars.flatMap fun v => [.const v.1 0, .store v.1 v.2.1 v.2.2]

/-- Code without labels and jumps, which uses local variables that have been given out. -/
structure InitCode (w : Writer) (code : Code) : Prop where
  stores : ∃ vars, code = storeConstants vars
  labels : labels (lines code) = []
  targets : targets (lines code) = []
  below : ∀ n ∈ slotEnds (lines code), n ≤ w.usedRegisters

theorem InitCode.nil (w : Writer) : InitCode w [] := ⟨⟨[], rfl⟩, rfl, rfl, by simp⟩

theorem InitCode.append {w w' : Writer} {code code' : Code} (h : InitCode w code)
    (h' : InitCode w' code') (hle : w.usedRegisters ≤ w'.usedRegisters) :
    InitCode w' (code ++ code') := by
  obtain ⟨vars, hvars⟩ := h.stores
  obtain ⟨vars', hvars'⟩ := h'.stores
  refine ⟨⟨vars ++ vars', by simp [hvars, hvars', storeConstants]⟩, by simp [h.labels, h'.labels],
    by simp [h.targets, h'.targets], fun n hn => ?_⟩
  rw [lines_append, slotEnds_append] at hn
  rcases List.mem_append.mp hn with hn | hn
  · exact (h.below n hn).trans hle
  · exact h'.below n hn

/-- The computation gives local variables to `vs` and prints code that initialises them. -/
def Inits (vars vs : List Local) (x : Emit Code) : Prop :=
  ∀ w, Numbered vars w → ∃ code, x w = some (code, vs.foldl Writer.touch w) ∧
    InitCode (vs.foldl Writer.touch w) code

section inits

variable {vars : List Local} (hvars : ∀ u ∈ vars, ∀ v ∈ vars, u.id = v.id → u = v)

theorem Inits.pure_nil : Inits vars [] (pure []) := fun w _ => ⟨[], rfl, .nil w⟩

include hvars

theorem Inits.bind {vs us : List Local} {x : Emit Code} {f : Code → Emit Code} (hvs : vs ⊆ vars)
    (hx : Inits vars vs x)
    (hf : ∀ w code, Numbered vars w → InitCode w code → ∃ code', f code w =
      some (code', us.foldl Writer.touch w) ∧ InitCode (us.foldl Writer.touch w) code') :
    Inits vars (vs ++ us) (x >>= f) := by
  intro w hw
  obtain ⟨code, hcode, hinit⟩ := hx w hw
  have hw' := hw.foldl_touch fun v hv u hu heq => hvars u hu v (hvs hv) heq
  obtain ⟨code', hcode', hinit'⟩ := hf _ code hw' hinit
  refine ⟨code', ?_, ?_⟩
  · rw [emit_bind, hcode, Option.bind_some, hcode', List.foldl_append]
  · rw [List.foldl_append]
    exact hinit'

theorem Inits.append {vs us : List Local} {x y : Emit Code} (hvs : vs ⊆ vars)
    (hx : Inits vars vs x) (hy : Inits vars us y) :
    Inits vars (vs ++ us) (do
      let code ← x
      let rest ← y
      return code ++ rest) := by
  refine hx.bind hvars hvs fun w code hw hcode => ?_
  obtain ⟨rest, hrest, hinit⟩ := hy w hw
  refine ⟨code ++ rest, ?_, hcode.append hinit (later_foldl_touch w us).usedRegisters_le⟩
  simp only [emit_bind, hrest, Option.bind_some, emit_pure]

theorem Inits.append₃ {vs us ts : List Local} {x y z : Emit Code} (hvs : vs ⊆ vars)
    (hus : us ⊆ vars) (hx : Inits vars vs x) (hy : Inits vars us y) (hz : Inits vars ts z) :
    Inits vars (vs ++ (us ++ ts)) (do
      let code ← x
      let code' ← y
      let rest ← z
      return code ++ code' ++ rest) := by
  refine hx.bind hvars hvs fun w code hw hcode => ?_
  obtain ⟨rest, hrest, hinit⟩ := (hy.append hvars hus hz) w hw
  simp only [emit_bind] at hrest ⊢
  refine ⟨code ++ rest, ?_, hcode.append hinit (later_foldl_touch w _).usedRegisters_le⟩
  cases hy' : y w with
  | none =>
      rw [hy'] at hrest
      cases hrest
  | some p =>
      cases hz' : z p.2 with
      | none =>
          simp only [hy', Option.bind_some, hz', Option.bind_none] at hrest
          cases hrest
      | some q =>
          simp only [hy', Option.bind_some, hz', emit_pure, Option.some.injEq,
            Prod.mk.injEq] at hrest ⊢
          exact ⟨by rw [← hrest.1, List.append_assoc], hrest.2⟩

omit hvars in
theorem initCode_init (opts : GenerationOpts) {v : Local} {w : Writer} {n : ℕ}
    (h : n + v.ty.registers ≤ w.usedRegisters) : InitCode w (initCode opts v.ty n) := by
  refine ⟨⟨[(_, _, _)], rfl⟩, by simp [initCode, Line.labels], by simp [initCode, Line.targets], ?_⟩
  simpa [initCode, Line.slotEnds, prefixRegisters_letter] using h

variable {opts : GenerationOpts} {skip : Bool}

theorem inits_printLocalVariable {v : Local} (hv : v ∈ vars) :
    Inits vars [v] (printLocalVariable opts skip v) := by
  intro w hw
  have hroom := (hw.touch fun u hu heq => hvars u hu v hv heq).room v hv _ (touch_has w v)
  refine ⟨if skip then [] else initCode opts v.ty ((w.touch v).slot v), ?_, ?_⟩
  · simp only [printLocalVariable, emit_bind, getLocalVarNumber_eq, Option.bind_some, emit_pure,
      List.foldl_cons, List.foldl_nil]
  · split_ifs
    · exact .nil _
    · exact initCode_init opts hroom

theorem inits_printLocalVariables {vs : List Local} (hvs : vs ⊆ vars) :
    Inits vars vs (printLocalVariables opts skip vs) := by
  induction vs with
  | nil => exact .pure_nil
  | cons v vs ih =>
      have hv := hvs List.mem_cons_self
      exact (inits_printLocalVariable hvars hv).append hvars (by simpa using hv)
        (ih fun u hu => hvs (List.mem_cons_of_mem v hu))

/-- The type of the variable is that of the parameter. -/
theorem inits_printSwapParameter {p : Option (Ty × Local)} (hp : ∀ q ∈ p, q.2 ∈ vars)
    (hty : ∀ q ∈ p, q.1 = q.2.ty) :
    Inits vars (p.map Prod.snd).toList (printSwapParameter opts p) := by
  cases p with
  | none => exact .pure_nil
  | some q =>
      obtain ⟨ty, v⟩ := q
      obtain rfl : ty = v.ty := hty _ rfl
      have hv : v ∈ vars := hp _ rfl
      intro w hw
      have hroom := (hw.touch fun u hu heq => hvars u hu v hv heq).room v hv _ (touch_has w v)
      refine ⟨_, ?_, initCode_init opts hroom⟩
      simp only [printSwapParameter, emit_bind, getLocalVarNumber_eq, Option.bind_some, emit_pure,
        Option.map_some, Option.toList_some, List.foldl_cons, List.foldl_nil]

/-- The values that get local variables for an instruction. -/
def Inst.variables (inst : Inst) : List Local :=
  inst.result.toList ++ (inst.op.swapParameter.map Prod.snd).toList

theorem inits_printInstVariables {insts : List Inst}
    (hinsts : ∀ inst ∈ insts, inst.variables ⊆ vars)
    (hty : ∀ inst ∈ insts, ∀ q ∈ inst.op.swapParameter, q.1 = q.2.ty) :
    Inits vars (insts.flatMap Inst.variables) (printInstVariables opts skip insts) := by
  induction insts with
  | nil => exact .pure_nil
  | cons inst insts ih =>
      have hsub := hinsts inst List.mem_cons_self
      have hresult : inst.result.toList ⊆ vars := fun v hv => hsub (List.mem_append_left _ hv)
      have hswap : (inst.op.swapParameter.map Prod.snd).toList ⊆ vars :=
        fun v hv => hsub (List.mem_append_right _ hv)
      have hparam : ∀ q ∈ inst.op.swapParameter, q.2 ∈ vars := by
        intro q hq
        exact hswap (by simp [Option.mem_def.mp hq])
      rw [List.flatMap_cons, Inst.variables, List.append_assoc]
      exact Inits.append₃ hvars hresult hswap (inits_printLocalVariables hvars hresult)
        (inits_printSwapParameter hvars hparam (hty inst List.mem_cons_self))
        (ih (fun i hi => hinsts i (List.mem_cons_of_mem inst hi))
          fun i hi => hty i (List.mem_cons_of_mem inst hi))

def BasicBlock.variables (b : BasicBlock) : List Local :=
  b.phis.map Phi.result ++ b.insts.flatMap Inst.variables

theorem inits_printBlockVariables {bs : List BasicBlock} (hbs : ∀ b ∈ bs, b.variables ⊆ vars)
    (hty : ∀ b ∈ bs, ∀ inst ∈ b.insts, ∀ q ∈ inst.op.swapParameter, q.1 = q.2.ty) :
    Inits vars (bs.flatMap BasicBlock.variables) (printBlockVariables opts skip bs) := by
  induction bs with
  | nil => exact .pure_nil
  | cons b bs ih =>
      have hsub := hbs b List.mem_cons_self
      have hphis : b.phis.map Phi.result ⊆ vars := fun v hv => hsub (List.mem_append_left _ hv)
      have hinsts : b.insts.flatMap Inst.variables ⊆ vars :=
        fun v hv => hsub (List.mem_append_right _ hv)
      rw [List.flatMap_cons, BasicBlock.variables, List.append_assoc]
      exact Inits.append₃ hvars hphis hinsts (inits_printLocalVariables hvars hphis)
        (inits_printInstVariables hvars (fun inst hinst v hv =>
          hinsts (List.mem_flatMap.mpr ⟨inst, hinst, hv⟩)) (hty b List.mem_cons_self))
        (ih (fun b' hb' => hbs b' (List.mem_cons_of_mem b hb'))
          fun b' hb' => hty b' (List.mem_cons_of_mem b hb'))

end inits

/-! ## The state before the body -/

section begun

variable {f : FunctionDef} (hf : f.WellFormed)

def FunctionDef.variables (f : FunctionDef) : List Local := f.blocks.flatMap BasicBlock.variables

/-- The state in which the body of a function is printed. -/
structure Begun (f : FunctionDef) (vaArgNum : ℕ) (w w' : Writer) : Prop where
  numbered : Numbered f.locals w'
  lookup : ∀ id, (w'.localVars.lookup id).isSome ↔ ∃ v ∈ f.locals, v.id = id
  used : w'.usedRegisters = (f.args.map fun v => v.ty.registers).sum +
    (if f.ref.type.isVarArg then 1 else 0) + freshRegisters (f.args.map Local.id) f.variables
  params : ∀ k v, f.args[k]? = some v →
    w'.Has v ((f.args.take k).map fun v => v.ty.registers).sum
  vaArgNum_le : vaArgNum ≤ w'.usedRegisters
  vaArgNum_eq : vaArgNum = (f.args.map fun v => v.ty.registers).sum
  vaArg : f.ref.type.isVarArg = true → vaArgNum < w'.usedRegisters ∧
    ∀ v ∈ f.locals, ∀ n, w'.Has v n → n + v.ty.registers ≤ vaArgNum ∨ vaArgNum < n
  uid : w'.uid = w.uid
  curRewriteBrLblId : w'.curRewriteBrLblId = w.curRewriteBrLblId
  lastLabel : w'.lastLabel = w.lastLabel

theorem uid_foldl_touch (w : Writer) (vars : List Local) :
    (vars.foldl Writer.touch w).uid = w.uid ∧
      (vars.foldl Writer.touch w).curRewriteBrLblId = w.curRewriteBrLblId := by
  induction vars generalizing w with
  | nil => exact ⟨rfl, rfl⟩
  | cons v vars ih =>
      have htouch : (w.touch v).uid = w.uid ∧
          (w.touch v).curRewriteBrLblId = w.curRewriteBrLblId := by
        unfold Writer.touch
        split <;> exact ⟨rfl, rfl⟩
      rw [List.foldl_cons, (ih (w.touch v)).1, (ih (w.touch v)).2]
      exact htouch

/-- A local variable that is given out later lies behind one that is in use. -/
theorem apart_foldl_touch {w : Writer} {r : ℕ} (hr : r < w.usedRegisters) {vars vs : List Local}
    (h : ∀ v ∈ vars, ∀ n, w.Has v n → n + v.ty.registers ≤ r ∨ r < n) :
    ∀ v ∈ vars, ∀ n, (vs.foldl Writer.touch w).Has v n → n + v.ty.registers ≤ r ∨ r < n := by
  induction vs generalizing w with
  | nil => exact h
  | cons u vs ih =>
      refine ih (hr.trans_le (later_touch w u).usedRegisters_le) fun v hv n hn => ?_
      rcases lookup_touch hn with hold | ⟨-, -, rfl, -⟩
      · exact h v hv n hold
      · exact .inr hr

theorem mem_locals_iff {v : Local} : v ∈ f.locals ↔ v ∈ f.args ∨ v ∈ f.variables := by
  have hblock : ∀ b : BasicBlock, v ∈ b.results ++ b.insts.filterMap (fun inst =>
      inst.op.swapParameter.map Prod.snd) ↔ v ∈ b.variables := by
    intro b
    simp only [BasicBlock.results, BasicBlock.variables, Inst.variables, List.mem_append,
      List.mem_filterMap, List.mem_flatMap, Option.mem_toList, or_assoc]
    refine or_congr_right ?_
    rw [← exists_or]
    exact exists_congr fun inst => by rw [and_or_left]
  simp only [FunctionDef.locals, FunctionDef.variables, List.mem_append, List.mem_flatMap]
  refine or_congr_right (exists_congr fun b => and_congr_right fun _ => ?_)
  rw [← hblock b, List.mem_append]

include hf

theorem begun {opts : GenerationOpts} {skip : Bool} {curBasicblockMapId vaArgNum : ℕ} {init : Code}
    {w w₁ w₂ w₃ w₄ : Writer} (h₁ : startFunction f curBasicblockMapId w = some ((), w₁))
    (h₂ : allocateLocals f.args w₁ = some ((), w₂))
    (h₃ : allocateVaArg f.ref.type.isVarArg w₂ = some (vaArgNum, w₃))
    (h₄ : printBlockVariables opts skip f.blocks w₃ = some (init, w₄)) :
    Begun f vaArgNum w w₄ ∧ InitCode w₄ init := by
  obtain ⟨hempty, hzero, hsteps⟩ : w₁.localVars = [] ∧ w₁.usedRegisters = 0 ∧
      w₁.uid = w.uid ∧ w₁.curRewriteBrLblId = w.curRewriteBrLblId ∧ w₁.lastLabel = w.lastLabel := by
    cases h₁
    exact ⟨rfl, rfl, rfl, rfl, rfl⟩
  rw [allocateLocals_eq] at h₂
  cases h₂
  have hargs : f.args ⊆ f.locals := fun v hv => mem_locals_iff.mpr (.inl hv)
  have hvars : f.variables ⊆ f.locals := fun v hv => mem_locals_iff.mpr (.inr hv)
  have hsame : ∀ {vs : List Local}, vs ⊆ f.locals → ∀ v ∈ vs, ∀ u ∈ f.locals, u.id = v.id → u = v :=
    fun hvs v hv u hu heq => hf.locals u hu v (hvs hv) heq
  obtain ⟨hused, hparams⟩ := foldl_touch_fresh hf.args (w := w₁) (by simp [hempty])
  simp only [hzero, Nat.zero_add] at hused hparams
  have hw₂ : Numbered f.locals (f.args.foldl Writer.touch w₁) :=
    (Numbered.of_empty hempty).foldl_touch (hsame hargs)
  -- the pointer to the variadic arguments
  have hw₃ : vaArgNum = (f.args.foldl Writer.touch w₁).usedRegisters ∧
      w₃.localVars = (f.args.foldl Writer.touch w₁).localVars ∧
      Later (f.args.foldl Writer.touch w₁) w₃ ∧ w₃.uid = w.uid ∧
      w₃.curRewriteBrLblId = w.curRewriteBrLblId ∧ w₃.lastLabel = w.lastLabel ∧
      (f.ref.type.isVarArg = true → vaArgNum < w₃.usedRegisters) ∧
      w₃.usedRegisters = (f.args.foldl Writer.touch w₁).usedRegisters +
        if f.ref.type.isVarArg then 1 else 0 := by
    have huid := uid_foldl_touch w₁ f.args
    have hlast := lastLabel_foldl_touch w₁ f.args
    rw [hsteps.1, hsteps.2.1] at huid
    rw [hsteps.2.2] at hlast
    unfold allocateVaArg at h₃
    cases hva : f.ref.type.isVarArg with
    | true =>
        rw [hva] at h₃
        cases h₃
        exact ⟨rfl, rfl, ⟨le_rfl, le_rfl, Nat.le_succ _⟩, huid.1, huid.2, hlast,
          fun _ => Nat.lt_succ_self _, rfl⟩
    | false =>
        rw [hva] at h₃
        cases h₃
        exact ⟨rfl, rfl, .refl _, huid.1, huid.2, hlast, by simp, rfl⟩
  obtain ⟨hnum, hvars₃, hlater, huid, hbr, hlast, hva, hcount⟩ := hw₃
  have hnumbered := hw₂.later hvars₃ hlater.usedRegisters_le
  obtain ⟨code, hcode, hinit⟩ := inits_printBlockVariables hf.locals
    (fun b hb v hv => hvars (List.mem_flatMap.mpr ⟨b, hb, hv⟩)) hf.swaps w₃ hnumbered
  rw [hcode] at h₄
  cases h₄
  change Begun f vaArgNum w (f.variables.foldl Writer.touch w₃) ∧ _
  refine ⟨⟨hnumbered.foldl_touch (hsame hvars), fun id => ?_, ?_, fun k v hv => ?_, ?_, ?_,
    fun hvararg => ?_, ?_, ?_, ?_⟩, hinit⟩
  · rw [isSome_lookup_foldl_touch, hvars₃, isSome_lookup_foldl_touch, hempty]
    simp only [List.lookup_nil, Option.isSome_none, Bool.false_eq_true, false_or,
      mem_locals_iff, or_and_right, exists_or]
  · rw [usedRegisters_foldl_touch, hcount, hused]
    intro id
    rw [hvars₃, isSome_lookup_foldl_touch, hempty]
    simp
  · refine Writer.Has.foldl_touch ?_ f.variables
    rw [Writer.Has, hvars₃]
    exact hparams k v hv
  · rw [hnum]
    exact hlater.usedRegisters_le.trans (later_foldl_touch w₃ _).usedRegisters_le
  · rw [hnum, hused]
  · have hlt := hva hvararg
    refine ⟨hlt.trans_le (later_foldl_touch w₃ _).usedRegisters_le, apart_foldl_touch hlt ?_⟩
    intro v hv n hn
    rw [hnum]
    exact .inl (hw₂.room v hv n (by rwa [Writer.Has, ← hvars₃]))
  · rw [(uid_foldl_touch w₃ f.variables).1, huid]
  · rw [(uid_foldl_touch w₃ f.variables).2, hbr]
  · rw [lastLabel_foldl_touch, hlast]

end begun

end Llxvm.Backend
