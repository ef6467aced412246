import Llxvm.Backend.LlvmRuns
import Llxvm.Backend.MethodSlots

/-!
# Runs of prologues

At the beginning of a method the caller has put the arguments into the first local variables.  The
prologue clears those of the other values and of the jumps, and opens a frame.
-/

namespace Llxvm.Backend

open Llxvm.Jvm Llxvm.Runtime

/-! ## Arguments -/

/-- The local variables at the beginning of a method; a wide value takes two of them. -/
def parameterLocals : ℕ → List Val → Locals
  | _, [] => fun _ => none
  | n, v :: vs => fun k =>
      if k = n then some v else parameterLocals (n + if v.isWide then 2 else 1) vs k

theorem parameterLocals_cons (n : ℕ) (v : Val) (vs : List Val) (k : ℕ) :
    parameterLocals n (v :: vs) k =
      if k = n then some v else parameterLocals (n + if v.isWide then 2 else 1) vs k := rfl

theorem parameterLocals_of_lt {vs : List Val} {n k : ℕ} (h : k < n) :
    parameterLocals n vs k = none := by
  induction vs generalizing n with
  | nil => rfl
  | cons v vs ih =>
      rw [parameterLocals_cons, if_neg (by omega)]
      apply ih
      omega

/-- The second half of a wide argument cannot be read. -/
theorem parameterLocals_halves (vs : List Val) (n k : ℕ)
    (h : (parameterLocals n vs k).any Val.isWide) : parameterLocals n vs (k + 1) = none := by
  induction vs generalizing n with
  | nil => rfl
  | cons v vs ih =>
      rw [parameterLocals_cons] at h ⊢
      by_cases hk : k = n
      · subst hk
        have hwide : v.isWide = true := by simpa using h
        rw [if_neg (by omega), if_pos hwide]
        apply parameterLocals_of_lt
        omega
      · rw [if_neg hk] at h
        have hle : n ≤ k := by
          by_contra hlt
          rw [parameterLocals_of_lt (by omega)] at h
          cases h
        rw [if_neg (by omega)]
        exact ih _ h

section arguments

variable {args : List Local} {xs : List LlvmVal}

theorem LlvmVal.isWide_represent (x : LlvmVal) :
    (if x.represent.isWide then 2 else 1) = x.type.registers := by
  obtain ⟨hletter, hnorm⟩ := x.represent_storedFrom
  have hiff := isWide_iff_registers hletter
  have hregisters : x.type.registers = 1 ∨ x.type.registers = 2 := by
    rcases x.type.letter_cases with ⟨-, hr⟩ | ⟨-, hr⟩
    · exact .inl hr
    · exact .inr hr
  split_ifs with hwide
  · exact (hiff.mp hwide).symm
  · rcases hregisters with hr | hr
    · exact hr.symm
    · exact (hwide (hiff.mpr hr)).elim

/-- Each argument is where the writer looks for it. -/
theorem parameterLocals_args (htypes : xs.map LlvmVal.type = args.map Local.ty) (rest : List Val)
    (n : ℕ) {k : ℕ} {v : Local} (hv : args[k]? = some v) : ∃ x, xs[k]? = some x ∧ x.type = v.ty ∧
      parameterLocals n (xs.map LlvmVal.represent ++ rest)
        (n + ((args.take k).map fun v => v.ty.registers).sum) = some x.represent := by
  induction args generalizing xs n k with
  | nil => cases hv
  | cons u args ih =>
      cases xs with
      | nil => cases htypes
      | cons x xs =>
          obtain ⟨hty, htypes⟩ := List.cons.inj htypes
          cases k with
          | zero =>
              obtain rfl : u = v := Option.some.inj hv
              exact ⟨x, rfl, hty, if_pos rfl⟩
          | succ k =>
              obtain ⟨y, hy, hyty, hlocal⟩ := ih htypes (n + u.ty.registers) hv
              refine ⟨y, hy, hyty, ?_⟩
              rw [List.map_cons, List.cons_append, parameterLocals_cons, List.take_succ_cons,
                List.map_cons, List.sum_cons, ← Nat.add_assoc, LlvmVal.isWide_represent, hty,
                if_neg, hlocal]
              have hpos := u.ty.registers_pos
              omega

theorem Values.exists_of_ofArgs {id : ℕ} {x : LlvmVal} (h : Values.ofArgs args xs id = some x) :
    ∃ (k : ℕ) (v : Local), args[k]? = some v ∧ xs[k]? = some x ∧ v.id = id := by
  induction args generalizing xs with
  | nil => cases h
  | cons v args ih =>
      cases xs with
      | nil => cases h
      | cons y xs =>
          rw [Values.ofArgs] at h
          by_cases hid : id = v.id
          · rw [hid, Function.update_self] at h
            exact ⟨0, v, rfl, h, hid.symm⟩
          · rw [Function.update_of_ne hid] at h
            obtain ⟨k, u, hu, hx, huid⟩ := ih h
            exact ⟨k + 1, u, hu, hx, huid⟩

end arguments

/-! ## Clearing -/

/-- The code that clears the values, where they have their local variables. -/
def clearCode (opts : GenerationOpts) (w : Writer) (vs : List Local) : Code :=
  vs.flatMap fun v => initCode opts v.ty (w.slot v)

/-- The computation gives local variables to `vs` and clears them. -/
def Clears (opts : GenerationOpts) (vs : List Local) (x : Emit Code) : Prop :=
  ∀ w, x w = some (clearCode opts (vs.foldl Writer.touch w) vs, vs.foldl Writer.touch w)

section clears

variable {opts : GenerationOpts} {vs us ts : List Local} {x y z : Emit Code}

theorem slot_foldl_touch {w : Writer} {v : Local} {n : ℕ} (h : w.Has v n) (us : List Local) :
    (us.foldl Writer.touch w).slot v = w.slot v := by
  rw [(h.foldl_touch us).slot_eq, h.slot_eq]

theorem has_foldl_touch {v : Local} (hv : v ∈ vs) (w : Writer) :
    ∃ n, (vs.foldl Writer.touch w).Has v n := by
  have hsome := (isSome_lookup_foldl_touch w vs v.id).mpr (.inr ⟨v, hv, rfl⟩)
  exact Option.isSome_iff_exists.mp hsome

/-- Local variables that are given out later are others. -/
theorem clearCode_append (w : Writer) (vs us : List Local) :
    clearCode opts (us.foldl Writer.touch (vs.foldl Writer.touch w)) (vs ++ us) =
      clearCode opts (vs.foldl Writer.touch w) vs ++
        clearCode opts (us.foldl Writer.touch (vs.foldl Writer.touch w)) us := by
  unfold clearCode
  rw [List.flatMap_append]
  congr 1
  apply List.flatMap_congr
  intro v hv
  obtain ⟨n, hn⟩ := has_foldl_touch hv w
  rw [slot_foldl_touch hn]

theorem Clears.append (hx : Clears opts vs x) (hy : Clears opts us y) :
    Clears opts (vs ++ us) (do
      let code ← x
      let rest ← y
      return code ++ rest) := by
  intro w
  simp only [emit_bind, hx w, hy _, Option.bind_some, emit_pure, List.foldl_append,
    clearCode_append]

theorem Clears.append₃ (hx : Clears opts vs x) (hy : Clears opts us y) (hz : Clears opts ts z) :
    Clears opts (vs ++ us ++ ts) (do
      let code ← x
      let code' ← y
      let rest ← z
      return code ++ code' ++ rest) := by
  intro w
  have h := (hx.append hy).append hz w
  simp only [emit_bind, hx w, hy _, hz _, Option.bind_some, emit_pure] at h ⊢
  exact h

theorem clears_printLocalVariable (v : Local) :
    Clears opts [v] (printLocalVariable opts false v) := by
  intro w
  simp only [printLocalVariable, emit_bind, getLocalVarNumber_eq, Option.bind_some, emit_pure,
    clearCode, List.flatMap_cons, List.flatMap_nil, List.append_nil, List.foldl_cons,
    List.foldl_nil, Bool.false_eq_true, if_false]

theorem clears_printLocalVariables (vs : List Local) :
    Clears opts vs (printLocalVariables opts false vs) := by
  induction vs with
  | nil => exact fun w => rfl
  | cons v vs ih => exact (clears_printLocalVariable v).append ih

theorem clears_printSwapParameter {p : Option (Ty × Local)} (hty : ∀ q ∈ p, q.1 = q.2.ty) :
    Clears opts (p.map Prod.snd).toList (printSwapParameter opts p) := by
  cases p with
  | none => exact fun w => rfl
  | some q =>
      obtain ⟨ty, v⟩ := q
      obtain rfl : ty = v.ty := hty _ rfl
      intro w
      simp only [printSwapParameter, emit_bind, getLocalVarNumber_eq, Option.bind_some, emit_pure,
        clearCode, Option.map_some, Option.toList_some, List.flatMap_cons, List.flatMap_nil,
        List.append_nil, List.foldl_cons, List.foldl_nil]

theorem clears_printInstVariables {insts : List Inst}
    (hty : ∀ inst ∈ insts, ∀ q ∈ inst.op.swapParameter, q.1 = q.2.ty) :
    Clears opts (insts.flatMap Inst.variables) (printInstVariables opts false insts) := by
  induction insts with
  | nil => exact fun w => rfl
  | cons inst insts ih =>
      apply Clears.append₃ (clears_printLocalVariables _)
      · exact clears_printSwapParameter (hty inst List.mem_cons_self)
      · exact ih fun i hi => hty i (List.mem_cons_of_mem inst hi)

theorem clears_printBlockVariables {bs : List BasicBlock}
    (hty : ∀ b ∈ bs, ∀ inst ∈ b.insts, ∀ q ∈ inst.op.swapParameter, q.1 = q.2.ty) :
    Clears opts (bs.flatMap BasicBlock.variables) (printBlockVariables opts false bs) := by
  induction bs with
  | nil => exact fun w => rfl
  | cons b bs ih =>
      apply Clears.append₃ (clears_printLocalVariables _)
      · exact clears_printInstVariables (hty b List.mem_cons_self)
      · exact ih fun b' hb' => hty b' (List.mem_cons_of_mem b hb')

end clears

/-! ## Runs -/

/-- What a local variable of the type is cleared to. -/
def Ty.zero (ty : Ty) : Val :=
  match ty.letter with
  | .l => .long 0#64
  | .f => .float 0#32
  | .d => .double 0#64
  | _ => .int 0#32

theorem Ty.zero_stored (ty : Ty) : ty.zero.letter = ty.letter ∧ normalize ty ty.zero = ty.zero := by
  rcases ty.letter_cases with ⟨h | h, -⟩ | ⟨h | h, -⟩ <;> rw [Ty.zero, h]
  · exact ⟨rfl, by simp [normalize]⟩
  · exact ⟨rfl, rfl⟩
  · exact ⟨rfl, rfl⟩
  · exact ⟨rfl, rfl⟩

section run

variable {env : Env} {opts : GenerationOpts} {w : Writer} {vars done : List Local}
  {locals : Locals} {s : List Val} {m : Memory}

theorem Locals.set_of_apart {n k : ℕ} {x y : Val} {ty ty' : Ty} (hx : x.letter = ty.letter)
    (hk : locals k = some y) (hy : y.letter = ty'.letter)
    (h : k + ty'.registers ≤ n ∨ n + ty.registers ≤ k) : locals.set n x k = locals k := by
  have hpos := ty.registers_pos
  have hpos' := ty'.registers_pos
  apply Locals.set_of_ne
  · omega
  · intro hwide
    rw [isWide_iff_registers hx] at hwide
    omega
  · intro hwide
    rw [hk, Option.any_some, isWide_iff_registers hy] at hwide
    omega

theorem Locals.set_halves (h : ∀ k, (locals k).any Val.isWide → locals (k + 1) = none) (n : ℕ)
    (x : Val) (k : ℕ) (hk : (locals.set n x k).any Val.isWide) :
    locals.set n x (k + 1) = none := by
  unfold Locals.set at hk ⊢
  have hhalf := h k
  split_ifs at hk ⊢ <;> simp_all

theorem run_initCode (ty : Ty) (n : ℕ) : run env (initCode opts ty n) none ⟨locals, s, m⟩ =
    .fall ⟨locals.set n ty.zero, s, m⟩ := by
  have hletter : ty.zero.letter = getTypePrefix ty true := ty.zero_stored.1
  have hconst : constant (getTypePrefix ty true) 0 = some ty.zero := by
    change constant ty.letter 0 = _
    rcases ty.letter_cases with ⟨h | h, -⟩ | ⟨h | h, -⟩ <;> rw [Ty.zero, h] <;> rfl
  simp only [initCode, run, step, Config.produce, hconst, Option.map_some]
  rw [if_pos hletter]

theorem run_createStackFrame_of_ok {m' : Memory} (h : Memory.createStackFrame m = .ok () m')
    (locals : Locals) (s : List Val) :
    run env [.invokestatic .createStackFrame] none ⟨locals, s, m⟩ = .fall ⟨locals, s, m'⟩ := by
  have hcall : (do Memory.createStackFrame; return none : MemM (Option Val)) m = .ok none m' := by
    simp only [bind, EStateM.bind, h]
    rfl
  exact run_invokestatic [] rfl rfl hcall locals s

/-- Some of the values have been set already, and those that are set now are others. -/
theorem Valuation.set_next (h : Valuation w done locals) (hs : Slots w vars)
    (hids : ∀ u ∈ vars, ∀ v ∈ vars, u.id = v.id → u = v) (hdone : done ⊆ vars) {v : Local}
    (hv : v ∈ vars) {x : Val} (hx : x.letter = v.ty.letter) (hnorm : normalize v.ty x = x) :
    Valuation w (done ++ [v]) (locals.set (w.slot v) x) ∧
      ∀ u ∈ done, u.id ≠ v.id → locals.set (w.slot v) x (w.slot u) = locals (w.slot u) := by
  have hother : ∀ u ∈ done, u.id ≠ v.id →
      locals.set (w.slot v) x (w.slot u) = locals (w.slot u) := by
    intro u hu hne
    obtain ⟨y, hy, hletter, -⟩ := h.typed u hu
    exact Locals.set_of_apart hx hy hletter (hs.apart u (hdone hu) v hv hne)
  refine ⟨⟨fun u hu => ?_, Locals.set_halves h.halves _ _⟩, hother⟩
  · by_cases hid : u.id = v.id
    · obtain rfl : u = v := by
        rcases List.mem_append.mp hu with hu | hu
        · exact hids u (hdone hu) v hv hid
        · exact List.mem_singleton.mp hu
      exact ⟨x, Locals.set_self _ _ _, hx, hnorm⟩
    · have hu : u ∈ done := by
        rcases List.mem_append.mp hu with hu | hu
        · exact hu
        · exact (hid (congrArg Local.id (List.mem_singleton.mp hu))).elim
      rw [hother u hu hid]
      exact h.typed u hu

variable (env opts) in
/-- The values that have been set before are not cleared. -/
theorem run_clearCode (hs : Slots w vars) (hids : ∀ u ∈ vars, ∀ v ∈ vars, u.id = v.id → u = v)
    {vs : List Local} (hvs : vs ⊆ vars) (hdone : done ⊆ vars) (h : Valuation w done locals) :
    ∃ locals', run env (clearCode opts w vs) none ⟨locals, s, m⟩ = .fall ⟨locals', s, m⟩ ∧
      Valuation w (done ++ vs) locals' ∧
      ∀ u ∈ done, (∀ v ∈ vs, u.id ≠ v.id) → locals' (w.slot u) = locals (w.slot u) := by
  induction vs generalizing done locals with
  | nil => exact ⟨locals, rfl, by rwa [List.append_nil], fun _ _ _ => rfl⟩
  | cons v vs ih =>
      have hv := hvs List.mem_cons_self
      obtain ⟨hletter, hnorm⟩ := v.ty.zero_stored
      obtain ⟨hnext, hother⟩ := h.set_next hs hids hdone hv hletter hnorm
      have hdone' : done ++ [v] ⊆ vars := List.append_subset.mpr ⟨hdone, by simpa using hv⟩
      obtain ⟨locals', hrun, hval, hkept⟩ := ih (List.subset_of_cons_subset hvs) hdone' hnext
      refine ⟨locals', ?_, ?_, fun u hu hne => ?_⟩
      · rw [clearCode, List.flatMap_cons, run_append_of_fall (run_initCode _ _)]
        exact hrun
      · rwa [List.append_assoc, List.singleton_append] at hval
      · rw [hkept u (List.mem_append_left _ hu) fun x hx => hne x (List.mem_cons_of_mem v hx)]
        exact hother u hu (hne v List.mem_cons_self)

variable (env) in
/-- The local variables of the jumps lie behind those of the values. -/
theorem run_initJumps_held {values : Values} (held : values.Held vars w locals) {start : ℕ}
    (hstart : ∀ v ∈ vars, w.slot v + v.ty.registers ≤ start) (n : ℕ) :
    ∃ locals', run env (initJumps start n) none ⟨locals, s, m⟩ = .fall ⟨locals', s, m⟩ ∧
      values.Held vars w locals' := by
  induction n with
  | zero => exact ⟨locals, rfl, held⟩
  | succ n ih =>
      obtain ⟨locals', hrun, held'⟩ := ih
      have happend : initJumps start (n + 1) =
          initJumps start n ++ [.const .i 0, .store .i .plain (start + n)] := by
        simp [initJumps, List.range_succ]
      have hkept : ∀ v ∈ vars, locals'.set (start + n) (.int 0#32) (w.slot v) =
          locals' (w.slot v) := by
        intro v hv
        obtain ⟨y, hy, hletter, -⟩ := held'.valuation.typed v hv
        have hroom := hstart v hv
        apply Locals.set_of_apart (x := .int 0#32) (rfl : _ = (Ty.int .w32).letter) hy hletter
        omega
      refine ⟨locals'.set (start + n) (.int 0#32), ?_, held'.slots,
        ⟨fun v hv => ?_, Locals.set_halves held'.valuation.halves _ _⟩, fun v hv x hx => ?_⟩
      · rw [happend, run_append_of_fall hrun]
        rfl
      · rw [hkept v hv]
        exact held'.valuation.typed v hv
      · rw [hkept v hv]
        exact held'.value v hv x hx

end run

/-! ## The beginning of the body -/

section prologue

variable {env : Env} {opts : GenerationOpts} {f : FunctionDef} {vaArgNum : ℕ} {w w₁ : Writer}
  {m : MethodText} {xs : List LlvmVal}

theorem Begun.slots (h : Begun f vaArgNum w w₁) : Slots w₁ f.locals := by
  have hhas : ∀ v ∈ f.locals, w₁.Has v (w₁.slot v) := by
    intro v hv
    obtain ⟨n, hn⟩ := Option.isSome_iff_exists.mp ((h.lookup v.id).mpr ⟨v, hv, rfl⟩)
    have hv : w₁.Has v n := hn
    rwa [hv.slot_eq]
  exact ⟨hhas, fun u hu v hv hne => h.numbered.apart u hu v hv hne _ _ (hhas u hu) (hhas v hv)⟩

/-- At the beginning of a method the arguments have their values. -/
theorem Begun.parameter (h : Begun f vaArgNum w w₁)
    (htypes : xs.map LlvmVal.type = f.args.map Local.ty) (rest : List Val) {k : ℕ} {v : Local}
    (hv : f.args[k]? = some v) : ∃ x, xs[k]? = some x ∧ x.type = v.ty ∧
      parameterLocals 0 (xs.map LlvmVal.represent ++ rest) (w₁.slot v) = some x.represent := by
  obtain ⟨x, hx, hty, hlocal⟩ := parameterLocals_args htypes rest 0 hv
  rw [Nat.zero_add, ← (h.params k v hv).slot_eq] at hlocal
  exact ⟨x, hx, hty, hlocal⟩

theorem Begun.valuation_args (h : Begun f vaArgNum w w₁)
    (htypes : xs.map LlvmVal.type = f.args.map Local.ty) (rest : List Val) :
    Valuation w₁ f.args (parameterLocals 0 (xs.map LlvmVal.represent ++ rest)) := by
  refine ⟨fun v hv => ?_, parameterLocals_halves _ 0⟩
  obtain ⟨k, hk⟩ := List.mem_iff_getElem?.mp hv
  obtain ⟨x, -, hty, hlocal⟩ := h.parameter htypes rest hk
  obtain ⟨hletter, hnorm⟩ := x.represent_storedFrom
  rw [hty] at hletter hnorm
  exact ⟨x.represent, hlocal, hletter, hnorm⟩

variable (hf : f.WellFormed) (hargs : ∀ u ∈ f.args, ∀ v ∈ f.variables, u.id ≠ v.id)
  (h : BlockTexts opts false f vaArgNum w w₁ m)

include hf hargs h

/-- Behind the prologue the arguments have their values, in a new frame. -/
theorem BlockTexts.run_prologue (htypes : xs.map LlvmVal.type = f.args.map Local.ty)
    (rest : List Val) {m₀ m₁ : Memory} (hframe : Memory.createStackFrame m₀ = .ok () m₁) :
    ∃ code locals, m.prologue = lines code ∧
      run env code none ⟨parameterLocals 0 (xs.map LlvmVal.represent ++ rest), [], m₀⟩ =
        .fall ⟨locals, [], m₁⟩ ∧
      (Values.ofArgs f.args xs).Held f.locals w₁ locals := by
  obtain ⟨w₀, init, hinit, hprologue⟩ := h.prologue
  have hclears : printBlockVariables opts false f.blocks w₀ = some (clearCode opts
      (f.variables.foldl Writer.touch w₀) f.variables, f.variables.foldl Writer.touch w₀) :=
    clears_printBlockVariables hf.swaps w₀
  cases hinit.symm.trans hclears
  have hslots := h.begun.slots
  have hsubset : f.args ⊆ f.locals := fun v hv => mem_locals_iff.mpr (.inl hv)
  obtain ⟨cleared, hclear, hval, hkept⟩ := run_clearCode env opts (s := [])
    (m := m₀) hslots hf.locals (fun v hv => mem_locals_iff.mpr (.inr hv)) hsubset
    (h.begun.valuation_args htypes rest)
  have held : (Values.ofArgs f.args xs).Held f.locals
      (f.variables.foldl Writer.touch w₀) cleared := by
    refine ⟨hslots, ⟨fun v hv => ?_, hval.halves⟩, fun v hv x hx => ?_⟩
    · exact hval.typed v (List.mem_append.mpr (mem_locals_iff.mp hv))
    · obtain ⟨k, u, hu, hxk, hid⟩ := Values.exists_of_ofArgs hx
      have hmem := List.mem_of_getElem? hu
      obtain rfl := hf.locals u (hsubset hmem) v hv hid
      obtain ⟨y, hy, hty, hlocal⟩ := h.begun.parameter htypes rest hu
      cases hxk.symm.trans hy
      exact ⟨hty, (hkept u hmem (hargs u hmem)).trans hlocal⟩
  obtain ⟨locals, hjumps, held'⟩ := run_initJumps_held env (s := []) (m := m₀) held
    (fun v hv => h.begun.numbered.room v hv _ (hslots.has v hv)) f.numJumps
  refine ⟨_, locals, hprologue, ?_, held'⟩
  rw [List.append_assoc, List.append_assoc]
  refine (run_append_of_fall hclear).trans ?_
  rw [run_append_of_fall hjumps]
  exact run_createStackFrame_of_ok hframe locals []

end prologue

end Llxvm.Backend
