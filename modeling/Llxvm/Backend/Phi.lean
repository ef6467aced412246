import Llxvm.Backend.Loads
import Llxvm.Lib.ParallelCopy

/-!
# PHI nodes

A PHI node becomes copies to its local at the end of every predecessor, one after the
other in the order of the nodes, where LLVM assigns to all of them at once.
-/

namespace Llxvm.Backend

open Llxvm.Jvm Llxvm.Runtime ParallelCopy

/-- A PHI node with its incoming values; basic blocks are numbers. -/
structure Phi where
  result : Local
  incoming : List (ℕ × Value)

def Phi.getIncomingValueForBlock (phi : Phi) (block : ℕ) : Option Value := phi.incoming.lookup block

/-- The loop of `printPHICopy`. -/
def printPHICopies (opts : GenerationOpts) (src : ℕ) : List Phi → Emit Code
  | [] => return []
  | phi :: phis =>
      match phi.getIncomingValueForBlock src with
      | none => unreachable
      | some val =>
          if val.isUndef then printPHICopies opts src phis
          else do
            let load ← printValueLoad opts val
            let store ← printValueStore opts phi.result
            let rest ← printPHICopies opts src phis
            return load ++ store ++ rest

/-! ## Simultaneous assignment -/

/-- The incoming value of a PHI node on an edge, if there is something to copy. -/
def Phi.copied (src : ℕ) (p : Phi) : Option Value :=
  (p.getIncomingValueForBlock src).filter (fun v => !v.isUndef)

/-- Every PHI node of the block has the value that its incoming value had before, and
nothing else has changed. -/
structure AssignedAtOnce (env : Env) (opts : GenerationOpts) (w : Writer) (src : ℕ)
    (phis : List Phi) (c c' : Config) : Prop where
  assigned : ∀ p ∈ phis, ∀ v, p.copied src = some v →
    ∃ x, Loads env opts w v c x ∧ c'.locals (w.slot p.result) = some (normalize p.result.ty x)
  unchanged : ∀ k, (∀ p ∈ phis, ¬ (w.slot p.result ≤ k ∧
    k < w.slot p.result + p.result.ty.registers)) → c'.locals k = c.locals k
  stack : c'.stack = c.stack
  memory : c'.memory = c.memory

/-- Every incoming value can be loaded as a value of its type, and none of them is a PHI node
whose copy comes first and changes it. -/
structure Sequenced (env : Env) (opts : GenerationOpts) (w : Writer) (src : ℕ) (phis : List Phi)
    (c : Config) : Prop where
  loads : ∀ p ∈ phis, ∀ v, p.copied src = some v →
    ∃ x, Loads env opts w v c x ∧ x.letter = v.type.letter
  ordered : phis.Pairwise fun p q => ∀ v, p.copied src = some v →
    ∀ u, q.copied src = some (.var u) →
    u.id = p.result.id → ∀ x, Loads env opts w v c x →
      c.locals (w.slot p.result) = some (normalize p.result.ty x)

/-! ## Values before a copy -/

/-- The exit of code that raises an exception or does not verify. -/
def Aborts : Exit → Prop
  | .throw _ _ => True
  | .stuck => True
  | _ => False

theorem aborts_andThen {env : Env} {x : Exit} (h : Aborts x) (code : Code) :
    Aborts (x.andThen env code) := by
  cases x with
  | fall c => cases h
  | jump l c => cases h
  | throw e c => trivial
  | stuck => trivial

section values

variable {env : Env} {opts : GenerationOpts} {w : Writer} {vars : List Local} {c : Config}

open Classical in
/-- A value as the source of a copy between variables, which are named by their numbers. -/
noncomputable def Value.source (env : Env) (opts : GenerationOpts) (blocks : List (String × ℕ)) :
    Value → ℕ ⊕ Val
  | .var v => .inl v.id
  | .const k =>
      if h : Value.Good env opts blocks (.const k) then .inr (normalize k.type h.choose)
      else .inr (.int 0#32)

/-- The values of the variables. -/
def valuation (w : Writer) (locals : Locals) (id : ℕ) : Val :=
  (locals ((w.localVars.lookup id).getD 0)).getD (.int 0#32)

theorem Valuation.locals_slot (hv : Valuation w vars c.locals) {v : Local} (hmem : v ∈ vars) :
    c.locals (w.slot v) = some (valuation w c.locals v.id) := by
  obtain ⟨x, hx, -⟩ := hv.typed v hmem
  have hslot : (w.localVars.lookup v.id).getD 0 = w.slot v := rfl
  rw [valuation, hslot, hx, Option.getD_some]

/-- The abstract source of a value is what its load leaves, truncated. -/
theorem value_source (hw : w.Fresh) (hs : Slots w vars) (hv : Valuation w vars c.locals) {v : Value}
    (hin : v.In vars) (hgood : v.Good env opts w.basicblockMap) :
    ∃ x, Loads env opts w v c x ∧ x.letter = v.type.letter ∧
      (v.source env opts w.basicblockMap).elim (valuation w c.locals) id = normalize v.type x := by
  cases v with
  | var v =>
      obtain ⟨x, hx, hletter, hnorm⟩ := hv.typed v hin
      refine ⟨x, (loads_var_iff hs hv hin x).mpr hx, hletter, ?_⟩
      have hslot := hv.locals_slot hin
      rw [hx] at hslot
      exact (Option.some.inj hslot).symm.trans hnorm.symm
  | const k =>
      refine ⟨hgood.choose, (loads_const_iff hw hgood.choose_spec.1 _).mpr rfl,
        hgood.choose_spec.2, ?_⟩
      simp [Value.source, hgood, Value.type]

theorem source_typed (hv : Valuation w vars c.locals) {v : Value} (hin : v.In vars)
    {blocks : List (String × ℕ)} (hgood : v.Good env opts blocks) {y : Val}
    (hy : (v.source env opts blocks).elim (valuation w c.locals) id = y) :
    y.letter = v.type.letter ∧ normalize v.type y = y := by
  subst hy
  cases v with
  | var v =>
      obtain ⟨x, hx, hletter, hnorm⟩ := hv.typed v hin
      have hslot := hv.locals_slot hin
      rw [hx] at hslot
      obtain rfl := Option.some.inj hslot
      exact ⟨hletter, hnorm⟩
  | const k =>
      have hsource :
          (Value.const k).source env opts blocks = .inr (normalize k.type hgood.choose) := by
        simp [Value.source, hgood]
      rw [hsource]
      exact ⟨(letter_normalize _ _).trans hgood.choose_spec.2, normalize_normalize _ _⟩

end values

/-! ## The copies of an edge -/

section copies

variable {env : Env} {opts : GenerationOpts} {w : Writer} {vars : List Local} {c : Config}

theorem silent_truncateCode (ty : Ty) : Silent (truncateCode ty) := by
  intro l hl
  unfold truncateCode at hl
  simp only at hl
  split_ifs at hl <;> simp at hl

/-- One copy: it stores the value of its source, or does not verify. -/
theorem run_copy (env : Env) (hw : w.Fresh) (hs : Slots w vars) (hv : Valuation w vars c.locals)
    {v : Value}
    (hin : v.In vars) {p : Local} (hp : p ∈ vars) (hty : v.type = p.ty) {load store : Code}
    {w₁ w₂ : Writer} (hload : printValueLoad opts v w = some (load, w₁))
    (hstore : printValueStore opts p w₁ = some (store, w₂)) :
    Emitted w w₂ (load ++ store) ∧
      (v.Good env opts w.basicblockMap → run env (load ++ store) none c = .fall { c with
        locals := c.locals.set (w.slot p)
          ((v.source env opts w.basicblockMap).elim (valuation w c.locals) id) }) ∧
      (¬ v.Good env opts w.basicblockMap → Aborts (run env (load ++ store) none c)) := by
  have hemit := emitted_printValueLoad hw hs hin hload
  have hslots₁ : Slots w₁ vars := hs.congr hemit.localVars
  have hslot : w₁.slot p = w.slot p := by simp only [Writer.slot, hemit.localVars]
  rw [printValueStore_eq (hslots₁.has p hp), hslot] at hstore
  cases hstore
  have hsilent : Silent (truncateCode p.ty ++
      [.store (getTypePrefix p.ty true) (localForm opts (w.slot p)) (w.slot p)]) :=
    (silent_truncateCode p.ty).append (by intro l hl; simp at hl)
  refine ⟨hemit.trans (.refl _ hsilent), fun hgood => ?_, fun hbad => ?_⟩
  · obtain ⟨x, ⟨is, w', hprint, hrun⟩, hletter, hvalue⟩ := value_source hw hs hv hin hgood
    cases hload.symm.trans hprint
    rw [run_append_of_fall hrun, hvalue, hty]
    exact run_store (hletter.trans (congrArg Ty.letter hty)) _ _ c
  · cases v with
    | var v => exact (hbad trivial).elim
    | const k =>
        have hload' : printConstantLoad opts k w = some (load, w₁) := hload
        have hsettled : Settled env w.basicblockMap (printConstantLoad opts k) [] :=
          settled_printConstantLoad k
        obtain ⟨r, hr⟩ := hsettled w hw rfl (by rw [hload']; rfl)
        obtain ⟨is, w', hprint, -, hacts⟩ := hr w hw rfl
        cases hload'.symm.trans hprint
        have hrun := hacts c
        have hstack : ({ c with stack := [] ++ c.stack } : Config) = c := rfl
        rw [hstack] at hrun
        rw [run_append]
        rcases r with - | (e | x)
        · rw [show run env load none c = .stuck from hrun]
          trivial
        · obtain ⟨c', hrun⟩ := hrun
          rw [hrun]
          trivial
        · have hne : x.letter ≠ p.ty.letter := fun heq =>
            hbad ⟨x, hr, heq.trans (congrArg Ty.letter hty.symm)⟩
          rw [show run env load none c = .fall (c.push x) from hrun]
          change Aborts (run env _ none (c.push x))
          rw [run_store_of_letter_ne hne]
          trivial

/-- The copies of an edge between abstract variables. -/
noncomputable def edgeCopies (env : Env) (opts : GenerationOpts) (blocks : List (String × ℕ))
    (src : ℕ) (phis : List Phi) : List (Copy ℕ Val) :=
  phis.filterMap fun p => (p.copied src).map fun v => ⟨p.result.id, v.source env opts blocks⟩

theorem edgeCopies_cons_none {blocks : List (String × ℕ)} {src : ℕ} {p : Phi} (phis : List Phi)
    (h : p.copied src = none) :
    edgeCopies env opts blocks src (p :: phis) = edgeCopies env opts blocks src phis :=
  List.filterMap_cons_none (by rw [h]; rfl)

theorem edgeCopies_cons_some {blocks : List (String × ℕ)} {src : ℕ} {p : Phi} (phis : List Phi)
    {v : Value} (h : p.copied src = some v) :
    edgeCopies env opts blocks src (p :: phis) =
      ⟨p.result.id, v.source env opts blocks⟩ :: edgeCopies env opts blocks src phis :=
  List.filterMap_cons_some (by rw [h]; rfl)

/-- The assumptions of `Function.WellFormed` on some of the PHI nodes of a block. -/
structure PhisWellFormed (vars : List Local) (src : ℕ) (phis : List Phi) : Prop where
  result_mem : ∀ p ∈ phis, p.result ∈ vars
  incoming : ∀ p ∈ phis, ∀ v, p.getIncomingValueForBlock src = some v →
    v.In vars ∧ v.type = p.result.ty

theorem PhisWellFormed.tail {src : ℕ} {p : Phi} {phis : List Phi}
    (h : PhisWellFormed vars src (p :: phis)) : PhisWellFormed vars src phis where
  result_mem := fun q hq => h.result_mem q (List.mem_cons_of_mem p hq)
  incoming := fun q hq => h.incoming q (List.mem_cons_of_mem p hq)

/-- The locals after the copies are those after the abstract copies in order. -/
structure CopiedInOrder (env : Env) (opts : GenerationOpts) (w : Writer) (vars : List Local)
    (src : ℕ) (phis : List Phi) (c c' : Config) : Prop where
  typed : Valuation w vars c'.locals
  values : ∀ v ∈ vars, valuation w c'.locals v.id =
    sequential (edgeCopies env opts w.basicblockMap src phis) (valuation w c.locals) v.id
  unchanged : ∀ k, (∀ p ∈ phis, ¬ (w.slot p.result ≤ k ∧
    k < w.slot p.result + p.result.ty.registers)) → c'.locals k = c.locals k
  stack : c'.stack = c.stack
  memory : c'.memory = c.memory

theorem CopiedInOrder.cons_of_none {src : ℕ} {p : Phi} {phis : List Phi} {c' : Config}
    (h : CopiedInOrder env opts w vars src phis c c') (hp : p.copied src = none) :
    CopiedInOrder env opts w vars src (p :: phis) c c' where
  typed := h.typed
  values := by
    intro v hv
    rw [edgeCopies_cons_none phis hp]
    exact h.values v hv
  unchanged := fun k hk => h.unchanged k fun q hq => hk q (List.mem_cons_of_mem p hq)
  stack := h.stack
  memory := h.memory

theorem edgeCopies_source_mem {src : ℕ} {phis : List Phi} (h : PhisWellFormed vars src phis)
    {blocks : List (String × ℕ)} :
    ∀ a ∈ edgeCopies env opts blocks src phis, ∀ i, a.source = .inl i →
      i ∈ {i | ∃ v ∈ vars, v.id = i} := by
  intro a ha i hi
  obtain ⟨p, hp, hpa⟩ := List.mem_filterMap.mp ha
  obtain ⟨v, hv, rfl⟩ := Option.map_eq_some_iff.mp hpa
  have hin := (h.incoming p hp v (Option.eq_some_of_filter_eq_some hv)).1
  cases v with
  | var v =>
      cases hi
      exact ⟨v, hin, rfl⟩
  | const k =>
      simp only [Value.source] at hi
      split_ifs at hi

theorem CopiedInOrder.cons_of_some (hids : ∀ u ∈ vars, ∀ v ∈ vars, u.id = v.id → u = v)
    (hs : Slots w vars) (hv : Valuation w vars c.locals) {src : ℕ} {p : Phi} {phis : List Phi}
    (hphis : PhisWellFormed vars src phis) (hmem : p.result ∈ vars) {v : Value}
    (hp : p.copied src = some v) {y : Val} (hletter : y.letter = p.result.ty.letter)
    (hy : (v.source env opts w.basicblockMap).elim (Backend.valuation w c.locals) id = y)
    {c' : Config}
    (h : CopiedInOrder env opts w vars src phis
      { c with locals := c.locals.set (w.slot p.result) y } c') :
    CopiedInOrder env opts w vars src (p :: phis) c c' where
  typed := h.typed
  values := by
    have hupdate : ∀ i ∈ {i | ∃ v ∈ vars, v.id = i},
        valuation w (c.locals.set (w.slot p.result) y) i =
          Function.update (valuation w c.locals) p.result.id y i := by
      rintro i ⟨u, hu, rfl⟩
      have hslot : (w.localVars.lookup u.id).getD 0 = w.slot u := rfl
      by_cases hid : u.id = p.result.id
      · obtain rfl := hids u hu p.result hmem hid
        rw [Function.update_self, valuation, hslot, Locals.set_self]
        rfl
      · rw [Function.update_of_ne hid, valuation, hslot, hv.set_of_ne hs hmem hletter hu hid]
        rfl
    intro u hu
    rw [h.values u hu, edgeCopies_cons_some phis hp, sequential]
    simp only [Copy.value, hy]
    exact sequential_congr (edgeCopies_source_mem hphis) hupdate u.id ⟨u, hu, rfl⟩
  unchanged := by
    intro k hk
    rw [h.unchanged k fun q hq => hk q (List.mem_cons_of_mem p hq)]
    exact hv.set_of_not_mem hmem hletter (hk p List.mem_cons_self)
  stack := h.stack
  memory := h.memory

/-- The printed copies run in order.  The state `w₀` of the writer is the one before the
branch; printing does not change what it says of the locals. -/
theorem run_printPHICopies (env : Env) {w₀ : Writer}
    (hids : ∀ u ∈ vars, ∀ v ∈ vars, u.id = v.id → u = v)
    {src : ℕ} {phis : List Phi} (hphis : PhisWellFormed vars src phis) {w' : Writer} {is : Code}
    (hprint : printPHICopies opts src phis w = some (is, w')) (hw : w.Fresh)
    (hvars : w.localVars = w₀.localVars) (hblocks : w.basicblockMap = w₀.basicblockMap)
    (hs : Slots w₀ vars) (hv : Valuation w₀ vars c.locals) :
    Emitted w w' is ∧
      ((∀ p ∈ phis, ∀ v, p.copied src = some v → v.Good env opts w₀.basicblockMap) →
        ∃ c', run env is none c = .fall c' ∧ CopiedInOrder env opts w₀ vars src phis c c') ∧
      (¬ (∀ p ∈ phis, ∀ v, p.copied src = some v → v.Good env opts w₀.basicblockMap) →
        Aborts (run env is none c)) := by
  induction phis generalizing w c is with
  | nil =>
      obtain ⟨rfl, rfl⟩ : [] = is ∧ w = w' := by simpa [printPHICopies, emit_pure] using hprint
      refine ⟨.refl _ (by intro l hl; cases hl), fun _ =>
        ⟨c, rfl, hv, fun _ _ => rfl, fun _ _ => rfl,
        rfl, rfl⟩, fun h => (h (by simp)).elim⟩
  | cons p phis ih =>
      rw [printPHICopies] at hprint
      cases hincoming : p.getIncomingValueForBlock src with
      | none =>
          rw [hincoming] at hprint
          cases hprint
      | some v =>
          rw [hincoming] at hprint
          simp only at hprint
          by_cases hundef : v.isUndef = true
          · -- nothing is copied
            have hcopied : p.copied src = none := by simp [Phi.copied, hincoming, hundef]
            rw [if_pos hundef] at hprint
            obtain ⟨hemit, hgood, hbad⟩ := ih hphis.tail hprint hw hvars hblocks hv
            simp only [List.forall_mem_cons, hcopied, reduceCtorEq, false_implies, implies_true,
              true_and]
            refine ⟨hemit, fun h => ?_, hbad⟩
            obtain ⟨c', hrun, hc'⟩ := hgood h
            exact ⟨c', hrun, hc'.cons_of_none hcopied⟩
          · have hcopied : p.copied src = some v := by simp [Phi.copied, hincoming, hundef]
            rw [if_neg hundef] at hprint
            obtain ⟨load, w₁, hload, hprint⟩ := emit_bind_eq_some hprint
            obtain ⟨store, w₂, hstore, hprint⟩ := emit_bind_eq_some hprint
            obtain ⟨rest, w₃, hrest, hprint⟩ := emit_bind_eq_some hprint
            cases hprint
            have hslots : Slots w vars := hs.congr hvars
            have hslot : w.slot p.result = w₀.slot p.result := by simp only [Writer.slot, hvars]
            have hval : valuation w c.locals = valuation w₀ c.locals := by
              funext i
              simp only [valuation, hvars]
            obtain ⟨hin, hty⟩ := hphis.incoming p List.mem_cons_self v hincoming
            have hmem := hphis.result_mem p List.mem_cons_self
            obtain ⟨hemit, hgood, hbad⟩ := run_copy env hw hslots (hv.congr hvars) hin hmem hty
              hload hstore
            have hvars₂ := hemit.localVars.trans hvars
            have hblocks₂ := hemit.basicblockMap.trans hblocks
            rw [hblocks] at hgood hbad
            rw [hslot, hval] at hgood
            have hemit₂ := (ih hphis.tail hrest (hemit.fresh hw) hvars₂ hblocks₂ hv).1
            obtain ⟨y, hy⟩ : ∃ y, (v.source env opts w₀.basicblockMap).elim
                (valuation w₀ c.locals) id = y := ⟨_, rfl⟩
            rw [hy] at hgood
            -- the remaining copies start from a valuation again
            have hset : v.Good env opts w₀.basicblockMap → y.letter = p.result.ty.letter ∧
                Valuation w₀ vars (c.locals.set (w₀.slot p.result) y) := by
              intro hv_good
              obtain ⟨hletter, hnorm⟩ := source_typed hv hin hv_good hy
              rw [hty] at hletter hnorm
              exact ⟨hletter, hv.set hs hids hmem hletter hnorm⟩
            refine ⟨hemit.trans hemit₂, fun h => ?_, fun h => ?_⟩
            · have hv_good := h p List.mem_cons_self v hcopied
              obtain ⟨hletter, hset⟩ := hset hv_good
              obtain ⟨c', hrun, hc'⟩ :=
                (ih (c := { c with locals := c.locals.set (w₀.slot p.result) y }) hphis.tail hrest
                  (hemit.fresh hw) hvars₂ hblocks₂ hset).2.1
                fun q hq => h q (List.mem_cons_of_mem p hq)
              exact ⟨c', by rw [run_append_of_fall (hgood hv_good), hrun],
                hc'.cons_of_some hids hs hv hphis.tail hmem hcopied hletter hy⟩
            · by_cases hv_good : v.Good env opts w₀.basicblockMap
              · rw [run_append_of_fall (hgood hv_good)]
                refine (ih (c := { c with locals := c.locals.set (w₀.slot p.result) y }) hphis.tail
                  hrest (hemit.fresh hw) hvars₂ hblocks₂ (hset hv_good).2).2.2 fun hall => h ?_
                intro q hq u hu
                rcases List.mem_cons.mp hq with rfl | hq
                · cases hcopied.symm.trans hu
                  exact hv_good
                · exact hall q hq u hu
              · rw [run_append]
                exact aborts_andThen (hbad hv_good) _

theorem source_eq_inl_iff {blocks : List (String × ℕ)} {v : Value} {i : ℕ} :
    v.source env opts blocks = .inl i ↔ ∃ u : Local, v = .var u ∧ u.id = i := by
  cases v with
  | var u => simp [Value.source]
  | const k =>
      simp only [Value.source, reduceCtorEq, false_and, exists_false, iff_false]
      split_ifs <;> simp

section edge

variable {src : ℕ} {phis : List Phi} (hw : w.Fresh) (hs : Slots w vars)
  (hv : Valuation w vars c.locals) (hphis : PhisWellFormed vars src phis)
  (hgood : ∀ p ∈ phis, ∀ v, p.copied src = some v → v.Good env opts w.basicblockMap)

include hw hs hv hphis hgood

theorem value_of_copied {p : Phi} (hp : p ∈ phis) {v : Value} (hcopied : p.copied src = some v) :
    ∃ x, Loads env opts w v c x ∧ x.letter = v.type.letter ∧
      (v.source env opts w.basicblockMap).elim (valuation w c.locals) id =
        normalize p.result.ty x := by
  obtain ⟨hin, hty⟩ := hphis.incoming p hp v (Option.eq_some_of_filter_eq_some hcopied)
  obtain ⟨x, hload, hletter, hvalue⟩ := value_source hw hs hv hin (hgood p hp v hcopied)
  exact ⟨x, hload, hletter, hty ▸ hvalue⟩

theorem ordered_edgeCopies_iff :
    Ordered (edgeCopies env opts w.basicblockMap src phis) (valuation w c.locals) ↔
      phis.Pairwise fun p q => ∀ v, p.copied src = some v → ∀ u, q.copied src = some (.var u) →
        u.id = p.result.id → ∀ x, Loads env opts w v c x →
          c.locals (w.slot p.result) = some (normalize p.result.ty x) := by
  rw [Ordered, edgeCopies, List.pairwise_filterMap]
  constructor
  · refine List.Pairwise.imp_of_mem fun {p q} hp hq h v hcopied u hu hid x hx => ?_
    obtain ⟨x', hload, -, hvalue⟩ := value_of_copied hw hs hv hphis hgood hp hcopied
    obtain rfl := hx.unique hload
    have hread := h ⟨_, v.source env opts w.basicblockMap⟩ (by rw [hcopied]; rfl)
      ⟨q.result.id, .inl u.id⟩ (by rw [hu]; rfl) (congrArg Sum.inl hid)
    rw [hv.locals_slot (hphis.result_mem p hp), ← hvalue]
    exact congrArg some hread.symm
  · refine List.Pairwise.imp_of_mem fun {p q} hp hq h a ha b hb hsource => ?_
    obtain ⟨v, hcopied, rfl⟩ := Option.map_eq_some_iff.mp ha
    obtain ⟨u, hu, rfl⟩ := Option.map_eq_some_iff.mp hb
    obtain ⟨y, rfl, hid⟩ := source_eq_inl_iff.mp hsource
    obtain ⟨x, hload, -, hvalue⟩ := value_of_copied hw hs hv hphis hgood hp hcopied
    have hlocal := h v hcopied y hu hid x hload
    rw [hv.locals_slot (hphis.result_mem p hp)] at hlocal
    exact hvalue.trans (Option.some.inj hlocal).symm

end edge

theorem edgeCopies_dest_nodup {blocks : List (String × ℕ)} {src : ℕ} {phis : List Phi}
    (h : (phis.map (·.result.id)).Nodup) :
    ((edgeCopies env opts blocks src phis).map Copy.dest).Nodup := by
  rw [List.Nodup, List.pairwise_map] at h ⊢
  rw [edgeCopies, List.pairwise_filterMap]
  refine h.imp fun {p q} hne a ha b hb => ?_
  obtain ⟨v, -, rfl⟩ := Option.map_eq_some_iff.mp ha
  obtain ⟨u, -, rfl⟩ := Option.map_eq_some_iff.mp hb
  exact hne

/-- The copies of an edge assign at once exactly when they are in a good order. -/
theorem printPHICopies_iff {w₀ : Writer} (hids : ∀ u ∈ vars, ∀ v ∈ vars, u.id = v.id → u = v)
    {src : ℕ} {phis : List Phi} (hphis : PhisWellFormed vars src phis)
    (hresults : (phis.map (·.result.id)).Nodup) {w' : Writer} {is : Code}
    (hprint : printPHICopies opts src phis w = some (is, w')) (hw : w.Fresh) (hw₀ : w₀.Fresh)
    (hvars : w.localVars = w₀.localVars) (hblocks : w.basicblockMap = w₀.basicblockMap)
    (hs : Slots w₀ vars) (hv : Valuation w₀ vars c.locals) :
    (∃ c', run env is none c = .fall c' ∧ AssignedAtOnce env opts w₀ src phis c c') ↔
      Sequenced env opts w₀ src phis c := by
  obtain ⟨-, hgoodrun, hbadrun⟩ := run_printPHICopies env hids hphis hprint hw hvars hblocks hs hv
  have hdest : ((edgeCopies env opts w₀.basicblockMap src phis).map Copy.dest).Nodup :=
    edgeCopies_dest_nodup hresults
  constructor
  · rintro ⟨c', hrun, hassign⟩
    have hgood : ∀ p ∈ phis, ∀ v, p.copied src = some v → v.Good env opts w₀.basicblockMap := by
      by_contra hnot
      have habort := hbadrun hnot
      rw [hrun] at habort
      exact habort
    obtain ⟨c'', hrun', horder⟩ := hgoodrun hgood
    cases hrun.symm.trans hrun'
    refine ⟨fun p hp v hcopied => ?_, ?_⟩
    · obtain ⟨x, hload, hletter, -⟩ := value_of_copied hw₀ hs hv hphis hgood hp hcopied
      exact ⟨x, hload, hletter⟩
    · rw [← ordered_edgeCopies_iff hw₀ hs hv hphis hgood, ← isParallel_sequential_iff hdest]
      refine ⟨fun a ha => ?_, fun i hi => sequential_of_forall_ne hi _⟩
      obtain ⟨p, hp, hpa⟩ := List.mem_filterMap.mp ha
      obtain ⟨v, hcopied, rfl⟩ := Option.map_eq_some_iff.mp hpa
      have hmem := hphis.result_mem p hp
      obtain ⟨x, hload, hlocal⟩ := hassign.assigned p hp v hcopied
      obtain ⟨x', hload', -, hvalue⟩ := value_of_copied hw₀ hs hv hphis hgood hp hcopied
      obtain rfl := hload.unique hload'
      rw [horder.typed.locals_slot hmem, horder.values _ hmem] at hlocal
      exact (Option.some.inj hlocal).trans hvalue.symm
  · rintro ⟨hloads, hordered⟩
    have hgood : ∀ p ∈ phis, ∀ v, p.copied src = some v → v.Good env opts w₀.basicblockMap := by
      intro p hp v hcopied
      obtain ⟨x, hload, hletter⟩ := hloads p hp v hcopied
      exact good_of_loads hw₀ hload hletter
    rw [← ordered_edgeCopies_iff hw₀ hs hv hphis hgood,
      ← isParallel_sequential_iff hdest] at hordered
    obtain ⟨c', hrun, hc'⟩ := hgoodrun hgood
    refine ⟨c', hrun, fun p hp v hcopied => ?_, hc'.unchanged, hc'.stack, hc'.memory⟩
    obtain ⟨x, hload, -, hvalue⟩ := value_of_copied hw₀ hs hv hphis hgood hp hcopied
    have hmem := hphis.result_mem p hp
    have hassigned := hordered.assigned ⟨p.result.id, v.source env opts w₀.basicblockMap⟩
      (List.mem_filterMap.mpr ⟨p, hp, by rw [hcopied]; rfl⟩)
    refine ⟨x, hload, ?_⟩
    rw [hc'.typed.locals_slot hmem, hc'.values _ hmem, hassigned, ← hvalue]
    rfl

end copies

end Llxvm.Backend
