import Llxvm.Backend.RunLines
import Mathlib.Data.List.Induction

/-!
# Computed gotos

The address of a block is its number in `basicblock_map`, which is keyed by the names of the
blocks, and an `indirectbr` is a `lookupswitch` over the numbers.
-/

namespace Llxvm.Backend

open Llxvm.Jvm Llxvm.Runtime

/-! ## The numbers of the blocks -/

/-- The number that the map has for a name. -/
def FunctionDef.blockNumber (f : FunctionDef) (curBasicblockMapId : ℕ) (name : String) : ℕ :=
  ((f.blockNumbers curBasicblockMapId).lookup name).getD 0

/-- The two fields of an entry belong to the last block of the name. -/
theorem lookup_mapIdx (bs : List BasicBlock) (cur : ℕ) (name : String)
    (h : ∃ b ∈ bs, b.name = name) :
    ∃ i b, bs[i]? = some b ∧ b.name = name ∧
      (bs.mapIdx fun i b => (b.name, cur + i)).reverse.lookup name = some (cur + i) ∧
      bs.reverse.find? (fun b => b.name = name) = some b := by
  induction bs using List.reverseRecOn with
  | nil => simp at h
  | append_singleton bs a ih =>
      rw [List.mapIdx_concat, List.reverse_concat, List.reverse_concat, List.lookup_cons,
        List.find?_cons]
      by_cases ha : a.name = name
      · exact ⟨bs.length, a, by simp, ha, by simp [ha], by simp [ha]⟩
      · obtain ⟨i, b, hi, hb, hlookup, hfind⟩ := ih (by
          obtain ⟨b, hb, hname⟩ := h
          rcases List.mem_append.mp hb with hb | hb
          · exact ⟨b, hb, hname⟩
          · exact (ha (List.mem_singleton.mp hb ▸ hname)).elim)
        have hlt := (List.getElem?_eq_some_iff.mp hi).1
        refine ⟨i, b, by rw [List.getElem?_append_left hlt, hi], hb, ?_, ?_⟩
        · simpa [beq_false_of_ne (Ne.symm ha)] using hlookup
        · simpa [ha] using hfind

section function

variable {f : FunctionDef} {cur : ℕ}

theorem blockNumber_spec (f : FunctionDef) (cur : ℕ) {name : String}
    (h : ∃ b ∈ f.blocks, b.name = name) :
    ∃ i b, f.blocks[i]? = some b ∧ b.name = name ∧ f.blockNumber cur name = cur + i ∧
      (f.blockNumbers cur).lookup name = some (f.blockNumber cur name) ∧
      f.blockNamed name = some b := by
  obtain ⟨i, b, hi, hb, hlookup, hfind⟩ := lookup_mapIdx f.blocks cur name h
  have hnumber : f.blockNumber cur name = cur + i := by
    rw [FunctionDef.blockNumber, FunctionDef.blockNumbers, hlookup]
    rfl
  exact ⟨i, b, hi, hb, hnumber, by rw [hnumber]; exact hlookup, hfind⟩

/-- The numbers of a function are different modulo `2 ^ 32`. -/
theorem name_eq_of_blockNumber (hcount : f.blocks.length ≤ 2 ^ 32) {name name' : String}
    (h : ∃ b ∈ f.blocks, b.name = name) (h' : ∃ b ∈ f.blocks, b.name = name')
    (heq : BitVec.ofNat 32 (f.blockNumber cur name) = BitVec.ofNat 32 (f.blockNumber cur name')) :
    name = name' := by
  obtain ⟨i, b, hi, hb, hnumber, -⟩ := blockNumber_spec f cur h
  obtain ⟨j, b', hj, hb', hnumber', -⟩ := blockNumber_spec f cur h'
  have hilt := (List.getElem?_eq_some_iff.mp hi).1
  have hjlt := (List.getElem?_eq_some_iff.mp hj).1
  have hmod := congrArg BitVec.toNat heq
  simp only [BitVec.toNat_ofNat, hnumber, hnumber'] at hmod
  have hij : i = j := by omega
  rw [hij, hj] at hi
  rw [← hb, ← hb', Option.some.inj hi]

/-! ## The switch -/

/-- The entry of a destination. -/
def FunctionDef.indirectCase (f : FunctionDef) (cur : ℕ) (name : String) : ℤ × ℕ :=
  (f.blockNumber cur name, ((f.blockNamed name).map BasicBlock.id).getD 0)

theorem indirectCases_eq {names : List String} (h : ∀ name ∈ names, ∃ b ∈ f.blocks, b.name = name)
    {w : Writer} (hw : w.basicblockMap = f.blockNumbers cur) :
    indirectCases f names w = some (names.map (f.indirectCase cur), w) := by
  induction names with
  | nil => rfl
  | cons name names ih =>
      obtain ⟨i, b, -, -, -, hlookup, hnamed⟩ := blockNumber_spec f cur (h name (by simp))
      simp only [indirectCases, emit_bind, emit_get, Option.bind_some, hw, hlookup, hnamed,
        ih fun n hn => h n (by simp [hn])]
      simp [emit_pure, FunctionDef.indirectCase, hnamed]

/-- On the number of a destination the switch goes to the last block of its name. -/
theorem switchTarget_indirect (cur : ℕ) (hcount : f.blocks.length ≤ 2 ^ 32) {names : List String}
    (h : ∀ name ∈ names, ∃ b ∈ f.blocks, b.name = name) {name : String} (hname : name ∈ names)
    (default : Label) :
    switchTarget ((((names.map (f.indirectCase cur)).foldl
        (fun m c => OrderedMap.insert c.1 c.2 m) []).map fun c => (c.1, Label.block c.2))) default
        (BitVec.ofNat 32 (f.blockNumber cur name)) =
      .block (f.indirectCase cur name).2 := by
  generalize hm : (names.map (f.indirectCase cur)).foldl
    (fun m c => OrderedMap.insert c.1 c.2 m) [] = m
  have hmem : ∀ e ∈ m, ∃ n ∈ names, f.indirectCase cur n = e := by
    intro e he
    rw [← hm] at he
    exact List.mem_map.mp ((OrderedMap.mem_foldl_insert he).resolve_right List.not_mem_nil)
  obtain ⟨id, hid⟩ : ∃ id, ((f.blockNumber cur name : ℤ), id) ∈ m := by
    rw [← hm]
    exact OrderedMap.exists_mem_foldl_insert (List.mem_map_of_mem hname)
  unfold switchTarget
  cases hfind : (m.map fun c => (c.1, Label.block c.2)).find?
      fun c => BitVec.ofInt 32 c.1 = BitVec.ofNat 32 (f.blockNumber cur name) with
  | none =>
      rw [List.find?_eq_none] at hfind
      exact absurd (by simp) (hfind _ (List.mem_map_of_mem hid))
  | some e =>
      have hkey := List.find?_some hfind
      obtain ⟨e', he', rfl⟩ := List.mem_map.mp (List.mem_of_find?_eq_some hfind)
      obtain ⟨n, hn, rfl⟩ := hmem e' he'
      have hnum :
          BitVec.ofNat 32 (f.blockNumber cur n) = BitVec.ofNat 32 (f.blockNumber cur name) := by
        have hkey' := of_decide_eq_true hkey
        simpa [FunctionDef.indirectCase] using hkey'
      rw [name_eq_of_blockNumber hcount (h n hn) (h name hname) hnum]
      rfl

end function

/-! ## Going to a block -/

/-- Every PHI node already holds its incoming value for the block `src`. -/
def PhisHold (env : Env) (opts : GenerationOpts) (w : Writer) (src : ℕ) (phis : List Phi)
    (c : Config) :
    Prop :=
  ∀ p ∈ phis, ∀ v, p.copied src = some v →
    ∃ x, Loads env opts w v c x ∧ c.locals (w.slot p.result) = some (normalize p.result.ty x)

theorem assignedAtOnce_self_iff {env : Env} {opts : GenerationOpts} {w : Writer} {src : ℕ}
    {phis : List Phi} {c : Config} :
    AssignedAtOnce env opts w src phis c c ↔ PhisHold env opts w src phis c :=
  ⟨fun h => h.assigned, fun h => ⟨h, fun _ _ => rfl, rfl, rfl⟩⟩

/-- The local of an `indirectbr` holds an address. -/
def withAddress (w : Writer) (address : Local) (y : Val) (c : Config) : Config :=
  { c with locals := c.locals.set (w.slot address) y }

/-- The address of the block `b` is loaded, and an `indirectbr` at the end of the block `src`
on this address goes to `b` with the PHI nodes of `b` set for the edge. -/
def Reaches (env : Env) (math : MathFunction → List (BitVec 64) → BitVec 64) (opts : GenerationOpts)
    (f : FunctionDef) (w : Writer) (address : Local) (destinations : List String) (src : ℕ)
    (b : BasicBlock) (c : Config) : Prop :=
  ∃ load y, printConstantLoad opts (.blockAddress b.name) w = some (load, w) ∧
    (∀ c₀, run env load none c₀ = .fall (c₀.push y)) ∧
    ∃ ls w', printIndirectBr opts f address destinations w = some (ls, w') ∧
      ∃ c', runLines env math ls none (withAddress w address y c) = .jump (.block b.id) c' ∧
        AssignedAtOnce env opts w src b.phis (withAddress w address y c) c'

section reaches

variable {env : Env} {math : MathFunction → List (BitVec 64) → BitVec 64} {opts : GenerationOpts}
  {f : FunctionDef} {cur : ℕ} {w : Writer} {address : Local} {destinations : List String}

theorem foldl_min_mem (a : String) (names : List String) : names.foldl min a ∈ a :: names := by
  induction names generalizing a with
  | nil => simp
  | cons b names ih =>
      rw [List.foldl_cons]
      rcases min_choice a b with h | h <;> rw [h]
      · rcases List.mem_cons.mp (ih a) with h | h <;> simp [h]
      · exact List.mem_cons_of_mem a (ih b)

theorem exists_firstNamed (hne : f.blocks ≠ []) : ∃ first, f.firstNamed = some first := by
  unfold FunctionDef.firstNamed
  cases hbs : f.blocks with
  | nil => exact (hne hbs).elim
  | cons b bs =>
      have hmem := foldl_min_mem b.name (bs.map BasicBlock.name)
      rw [← List.map_cons, ← hbs] at hmem
      obtain ⟨i, first, -, -, -, -, hnamed⟩ := blockNumber_spec f 0 (List.mem_map.mp hmem)
      exact ⟨first, hnamed⟩

/-- What is printed: the load of the local, and the switch. -/
theorem printIndirectBr_eq (opts : GenerationOpts) (hblocks : w.basicblockMap = f.blockNumbers cur)
    (hhas : w.Has address (w.slot address))
    (hdest : ∀ name ∈ destinations, ∃ b ∈ f.blocks, b.name = name) (hne : f.blocks ≠ []) :
    ∃ form default, printIndirectBr opts f address destinations w = some
      (.instr (.load .i form (w.slot address)) :: printSwitchInstruction
        (destinations.map (f.indirectCase cur)) default, w) := by
  obtain ⟨first, hfirst⟩ := exists_firstNamed hne
  refine ⟨if 255 < w.slot address ∧ opts.useKrakatau then .wide else .plain, first.id, ?_⟩
  simp only [printIndirectBr, emit_bind, getLocalVarNumber_of_has hhas, Option.bind_some,
    indirectCases_eq hdest hblocks, hfirst, emit_pure]

theorem run_blockAddress (hldc : opts.wideLdc = false) (n : ℕ) (c₀ : Config) :
    run env [ldcToken opts (.int n)] none c₀ = .fall (c₀.push (.int (BitVec.ofNat 32 n))) := by
  simp [ldcToken, hldc, run, step, Config.produce, ldcValue, Config.push]

theorem run_wideBlockAddress (hldc : opts.wideLdc = true) (n : ℕ) (c₀ : Config) :
    run env [ldcToken opts (.int n)] none c₀ = .fall (c₀.push (.long (BitVec.ofNat 64 n))) := by
  simp [ldcToken, hldc, run, step, Config.produce, ldc2Value, Config.push]

/-- A computed goto reaches a block exactly if addresses are loaded as an `int`, the block is the
last one of its name, and there is nothing to copy for its PHI nodes. -/
theorem reaches_iff (hblocks : w.basicblockMap = f.blockNumbers cur)
    (hhas : w.Has address (w.slot address)) (hids : (f.blocks.map BasicBlock.id).Nodup)
    (hcount : f.blocks.length ≤ 2 ^ 32)
    (hdest : ∀ name ∈ destinations, ∃ b ∈ f.blocks, b.name = name) {b : BasicBlock}
    (hb : b ∈ f.blocks) (hmem : b.name ∈ destinations) (src : ℕ) (c : Config) :
    Reaches env math opts f w address destinations src b c ↔
      opts.wideLdc = false ∧ f.blockNamed b.name = some b ∧
        PhisHold env opts w src b.phis
          (withAddress w address (.int (BitVec.ofNat 32 (f.blockNumber cur b.name))) c) := by
  obtain ⟨i, last, -, hname, -, hlookup, hnamed⟩ := blockNumber_spec f cur ⟨b, hb, rfl⟩
  have hlast : last ∈ f.blocks := List.mem_reverse.mp (List.mem_of_find?_eq_some hnamed)
  have hload : printConstantLoad opts (.blockAddress b.name) w =
      some ([ldcToken opts (.int (f.blockNumber cur b.name))], w) := by
    simp only [printConstantLoad, emit_bind, emit_get, Option.bind_some, hblocks, hlookup,
      emit_pure]
  obtain ⟨form, default, hprint⟩ := printIndirectBr_eq opts hblocks hhas hdest
    (List.ne_nil_of_mem hb)
  have hslot : ∀ y, (withAddress w address y c).locals (w.slot address) = some y := fun y => by
    simp [withAddress]
  -- the switch goes to the last block of the name and leaves the frame as it is
  have hrun : ∀ c₁ : Config,
      c₁.locals (w.slot address) = some (.int (BitVec.ofNat 32 (f.blockNumber cur b.name))) →
      runLines env math (.instr (.load .i form (w.slot address)) :: printSwitchInstruction
        (destinations.map (f.indirectCase cur)) default) none c₁ = .jump (.block last.id) c₁ := by
    intro c₁ hc₁
    have htarget := switchTarget_indirect cur hcount hdest hmem (.block default)
    simp only [FunctionDef.indirectCase, hnamed] at htarget
    simp only [runLines, step, hc₁, Val.letter, if_true, printSwitchInstruction]
    exact congrArg (Exit.jump · c₁) htarget
  cases hldc : opts.wideLdc with
  | true =>
      refine iff_of_false ?_ (by simp)
      rintro ⟨load, y, hload', hpush, ls, w', hprint', c', hjump, -⟩
      cases hload.symm.trans hload'
      cases hprint.symm.trans hprint'
      have hy : y = .long (BitVec.ofNat 64 (f.blockNumber cur b.name)) := by
        have hfall := (hpush c).symm.trans (run_wideBlockAddress hldc _ c)
        simpa [Config.push] using hfall
      -- a `long` cannot be loaded as an `int`
      rw [runLines, step, hslot, hy] at hjump
      simp [Val.letter] at hjump
  | false =>
      simp only [true_and]
      constructor
      · rintro ⟨load, y, hload', hpush, ls, w', hprint', c', hjump, hassigned⟩
        cases hload.symm.trans hload'
        cases hprint.symm.trans hprint'
        obtain rfl : y = .int (BitVec.ofNat 32 (f.blockNumber cur b.name)) := by
          have hfall := (hpush c).symm.trans (run_blockAddress hldc _ c)
          simpa [Config.push] using hfall
        rw [hrun _ (hslot _)] at hjump
        simp only [Exit.jump.injEq, Label.block.injEq] at hjump
        obtain ⟨hid, rfl⟩ := hjump
        obtain rfl := List.inj_on_of_nodup_map hids hlast hb hid
        exact ⟨hnamed, assignedAtOnce_self_iff.mp hassigned⟩
      · rintro ⟨hself, hphis⟩
        rw [hnamed] at hself
        cases hself
        exact ⟨_, _, hload, run_blockAddress hldc _, _, _, hprint, _, hrun _ (hslot _),
          assignedAtOnce_self_iff.mpr hphis⟩

end reaches

/-- An entry block that may go to the two blocks behind it, which have the given names. -/
def gotoFunction (first second : String) : FunctionDef where
  ref := ⟨"f", ⟨[.pointer], false, none⟩, false⟩
  hasLocalLinkage := false
  args := [⟨0, .pointer⟩]
  blocks := [⟨0, "entry", [], [⟨none, .indirectBr ⟨0, .pointer⟩ [first, second]⟩]⟩,
    ⟨1, first, [], []⟩,
    ⟨2, second, [], []⟩]
  loopInfo := ⟨fun _ => none, fun _ => 0, fun _ => none, fun _ => []⟩

def gotoWriter (f : FunctionDef) : Writer := ⟨[(0, 0)], 1, f.blockNumbers 100, 0, 700, none⟩

theorem gotoFunction_hyps (first second : String) :
    (gotoWriter (gotoFunction first second)).Has ⟨0, .pointer⟩ 0 ∧
      ((gotoFunction first second).blocks.map BasicBlock.id).Nodup ∧
      ∀ name ∈ [first, second], ∃ b ∈ (gotoFunction first second).blocks, b.name = name := by
  refine ⟨rfl, by simp [gotoFunction], fun name hname => ?_⟩
  simp only [List.mem_cons, List.not_mem_nil, or_false] at hname
  rcases hname with rfl | rfl
  · exact ⟨⟨1, name, [], []⟩, by simp [gotoFunction], rfl⟩
  · exact ⟨⟨2, name, [], []⟩, by simp [gotoFunction], rfl⟩

/-- Blocks with names are told apart. -/
theorem reaches_named :
    Reaches .plain (fun _ _ => 0) ⟨false, false, false, false⟩ (gotoFunction "a" "b")
      (gotoWriter (gotoFunction "a" "b")) ⟨0, .pointer⟩ ["a", "b"] 0 ⟨1, "a", [], []⟩
      ⟨fun _ => none, [], Memory.initial⟩ := by
  obtain ⟨hhas, hids, hdest⟩ := gotoFunction_hyps "a" "b"
  refine (reaches_iff rfl hhas hids (by decide) hdest (by simp [gotoFunction]) (by simp) 0 _).mpr
    ⟨rfl, rfl, ?_⟩
  intro p hp
  cases hp

/-- Of two blocks without a name the first one is never reached. -/
theorem not_reaches_unnamed :
    ¬ ∀ (env : Env) (math : MathFunction → List (BitVec 64) → BitVec 64) (opts : GenerationOpts)
        (f : FunctionDef) (cur : ℕ) (w : Writer) (address : Local) (destinations : List String),
      w.basicblockMap = f.blockNumbers cur → w.Has address (w.slot address) →
      (f.blocks.map BasicBlock.id).Nodup → f.blocks.length ≤ 2 ^ 32 →
      (∀ name ∈ destinations, ∃ b ∈ f.blocks, b.name = name) →
      ∀ b ∈ f.blocks, b.name ∈ destinations → ∀ (src : ℕ) (c : Config),
        Reaches env math opts f w address destinations src b c := by
  intro h
  obtain ⟨hhas, hids, hdest⟩ := gotoFunction_hyps "" ""
  have hreach := h .plain (fun _ _ => 0) ⟨false, false, false, false⟩ (gotoFunction "" "") 100
    (gotoWriter (gotoFunction "" "")) ⟨0, .pointer⟩ ["", ""] rfl hhas hids (by decide) hdest
    ⟨1, "", [], []⟩ (by simp [gotoFunction]) (by simp) 0 ⟨fun _ => none, [], Memory.initial⟩
  obtain ⟨-, hlast, -⟩ := (reaches_iff rfl hhas hids (by decide) hdest (by simp [gotoFunction])
    (by simp) 0 _).mp hreach
  cases hlast

end Llxvm.Backend
