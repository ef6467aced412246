import Mathlib.Data.List.Perm.Subperm
import Mathlib.Data.List.Nodup
import Llxvm.Backend.Method

/-!
# The order of basic blocks

The blocks of a method are printed in the order of the loops.  In a forest of loops every block
comes once, and the entry block comes first.
-/

namespace Llxvm.Backend

namespace LoopInfo

variable (li : LoopInfo)

/-- The second loop is the first one or around it. -/
inductive Within : ℕ → ℕ → Prop
  | refl (l : ℕ) : Within l l
  | parent {m p l : ℕ} (h : li.parentLoop m = some p) (hp : Within p l) : Within m l

/-- A loop that some block is in. -/
def IsLoop (l : ℕ) : Prop := ∃ b m, li.loopFor b = some m ∧ li.Within m l

/-- The loops of a function with the blocks `ids`, whose first one is entered first: a loop has the
blocks whose innermost loop it is, and those of the loops in it, and it is entered at its header,
which comes first. -/
structure WellFormed (ids : List ℕ) : Prop where
  blocks_eq : ∀ l, li.IsLoop l → ∃ rest, li.blocks l = li.header l :: rest
  nodup : ∀ l, li.IsLoop l → (li.blocks l).Nodup
  mem_blocks : ∀ l, li.IsLoop l → ∀ b, b ∈ li.blocks l ↔ ∃ m, li.loopFor b = some m ∧ li.Within m l
  loopFor_header : ∀ l, li.IsLoop l → li.loopFor (li.header l) = some l
  loopFor_mem : ∀ b m, li.loopFor b = some m → b ∈ ids
  acyclic : ∀ m p, li.parentLoop m = some p → ¬ li.Within p m
  entry : ∀ b ∈ ids.head?, ∀ l, li.IsLoop l → b ∈ li.blocks l → li.header l = b

/-- The loops of a function that has none. -/
def empty : LoopInfo := ⟨fun _ => none, fun _ => 0, fun _ => none, fun _ => []⟩

theorem wellFormed_empty (ids : List ℕ) : empty.WellFormed ids := by
  have hloop : ∀ l, ¬ empty.IsLoop l := by
    rintro l ⟨b, m, hb, -⟩
    cases hb
  exact ⟨fun l hl => (hloop l hl).elim, fun l hl => (hloop l hl).elim,
    fun l hl => (hloop l hl).elim, fun l hl => (hloop l hl).elim,
    fun _ _ hb => (by cases hb), fun _ _ hm => (by cases hm), fun _ _ l hl => (hloop l hl).elim⟩

/-- What `printLoop` does for a block of the loop `l`. -/
def blockOrder (inner : ℕ → List ℕ) (l b : ℕ) : List ℕ :=
  match li.loopFor b with
  | some blockLoop =>
      if l = blockLoop then [b]
      else if b = li.header blockLoop ∧ some l = li.parentLoop blockLoop then inner blockLoop
      else []
  | none => []

/-- The order in which `printLoop` comes to the blocks of a loop. -/
def loopOrder : ℕ → ℕ → List ℕ
  | 0, _ => []
  | n + 1, l => (li.blocks l).flatMap (li.blockOrder (loopOrder n) l)

/-- What `printFunctionBody` does for a block. -/
def topOrder (n b : ℕ) : List ℕ :=
  match li.loopFor b with
  | some l => if li.header l = b ∧ li.parentLoop l = none then li.loopOrder n l else []
  | none => [b]

/-- The order in which `printFunctionBody` comes to the blocks. -/
def bodyOrder (ids : List ℕ) : List ℕ := ids.flatMap (li.topOrder ids.length)

variable {li}

theorem Within.trans {l m k : ℕ} (h₁ : li.Within l m) (h₂ : li.Within m k) : li.Within l k := by
  induction h₁ with
  | refl l => exact h₂
  | parent h _ ih => exact .parent h (ih h₂)

theorem Within.linear {l m k : ℕ} (h₁ : li.Within l m) (h₂ : li.Within l k) :
    li.Within m k ∨ li.Within k m := by
  induction h₁ with
  | refl l => exact .inl h₂
  | parent h h₁ ih =>
      cases h₂ with
      | refl => exact .inr (.parent h h₁)
      | parent h' h₂ =>
          rw [h] at h'
          cases h'
          exact ih h₂

/-- The loop in `l` that contains the loop `m`. -/
theorem Within.exists_child {l m : ℕ} (hwithin : li.Within m l) (hne : m ≠ l) :
    ∃ c, li.parentLoop c = some l ∧ li.Within m c := by
  induction hwithin with
  | refl l => exact (hne rfl).elim
  | @parent m p l hp hwithin ih =>
      by_cases hpl : p = l
      · exact ⟨m, hpl ▸ hp, .refl m⟩
      · obtain ⟨c, hc, hpc⟩ := ih hpl
        exact ⟨c, hc, .parent hp hpc⟩

theorem IsLoop.of_loopFor {b m : ℕ} (h : li.loopFor b = some m) : li.IsLoop m :=
  ⟨b, m, h, .refl m⟩

theorem IsLoop.parent {m p : ℕ} (h : li.IsLoop m) (hp : li.parentLoop m = some p) :
    li.IsLoop p := by
  obtain ⟨b, k, hb, hk⟩ := h
  exact ⟨b, k, hb, hk.trans (.parent hp (.refl p))⟩

/-- Loops, each of which is in those before it, given by their blocks. -/
def nest (loops : List (List ℕ)) : LoopInfo where
  loopFor b := match (loops.takeWhile fun blocks => b ∈ blocks).length with
    | 0 => none
    | depth + 1 => some depth
  header l := (loops.getD l []).headD 0
  parentLoop l := match l with
    | 0 => none
    | outer + 1 => some outer
  blocks l := loops.getD l []

section nest

variable {loops : List (List ℕ)}

/-- A loop that has a block is one of the loops. -/
theorem blocks_nest_mem {b l : ℕ} (hb : b ∈ (nest loops).blocks l) :
    ∃ hl : l < loops.length, (nest loops).blocks l = loops[l] := by
  change b ∈ loops.getD l [] at hb
  by_cases hl : l < loops.length
  · exact ⟨hl, List.getD_eq_getElem _ _ hl⟩
  · rw [List.getD_eq_default _ _ (not_lt.mp hl)] at hb
    cases hb

theorem within_nest_iff {m l : ℕ} : (nest loops).Within m l ↔ l ≤ m := by
  constructor
  · intro h
    induction h with
    | refl l => exact le_rfl
    | @parent m p l hp _ ih =>
        cases m with
        | zero => cases hp
        | succ m =>
            cases hp
            exact ih.trans (Nat.le_succ _)
  · intro h
    induction m, h using Nat.le_induction with
    | base => exact .refl l
    | succ m _ ih => exact .parent rfl ih

theorem mem_blocks_nest (hinner : loops.Pairwise fun outer inner => inner ⊆ outer.tail)
    (b l : ℕ) :
    b ∈ (nest loops).blocks l ↔ l < (loops.takeWhile fun blocks => b ∈ blocks).length := by
  change b ∈ loops.getD l [] ↔ _
  induction loops generalizing l with
  | nil => simp
  | cons outer loops ih =>
      obtain ⟨houter, hinner⟩ := List.pairwise_cons.mp hinner
      rw [List.takeWhile_cons]
      by_cases hb : b ∈ outer
      · cases l with
        | zero => simp [hb]
        | succ l => simpa [hb] using ih hinner l
      · -- what is not in the outer loop is in no loop
        have hnot : ∀ inner ∈ outer :: loops, b ∉ inner := by
          rintro inner hmem hb'
          rcases List.mem_cons.mp hmem with rfl | hmem
          · exact hb hb'
          · exact hb (List.mem_of_mem_tail (houter inner hmem hb'))
        simp only [hb, decide_false, Bool.false_eq_true, if_false, List.length_nil, not_lt_zero,
          iff_false]
        intro hmem
        obtain ⟨hl, heq⟩ := blocks_nest_mem hmem
        have heq : (outer :: loops).getD l [] = _ := heq
        exact hnot _ (List.getElem_mem hl) (heq ▸ hmem)

theorem loopFor_nest_iff (hinner : loops.Pairwise fun outer inner => inner ⊆ outer.tail)
    (b m : ℕ) : (nest loops).loopFor b = some m ↔
      b ∈ (nest loops).blocks m ∧ b ∉ (nest loops).blocks (m + 1) := by
  rw [mem_blocks_nest hinner, mem_blocks_nest hinner]
  simp only [nest]
  split <;> simp <;> omega

/-- Loops in one another, with blocks of the function only, that are entered at their first
blocks. -/
theorem wellFormed_nest {ids : List ℕ}
    (hinner : loops.Pairwise fun outer inner => inner ⊆ outer.tail)
    (hblocks : ∀ blocks ∈ loops, blocks ≠ [] ∧ blocks.Nodup ∧ blocks ⊆ ids ∧
      ∀ b ∈ ids.head?, b ∈ blocks → blocks.head? = some b) : (nest loops).WellFormed ids := by
  have hloop : ∀ l, (nest loops).IsLoop l → (nest loops).blocks l ∈ loops := by
    rintro l ⟨b, m, hb, hm⟩
    obtain ⟨hlt, -⟩ := blocks_nest_mem ((loopFor_nest_iff hinner b m).mp hb).1
    have hl := (within_nest_iff.mp hm).trans_lt hlt
    change loops.getD l [] ∈ loops
    rw [List.getD_eq_getElem _ _ hl]
    exact List.getElem_mem hl
  have hcons : ∀ l, (nest loops).IsLoop l →
      ∃ rest, (nest loops).blocks l = (nest loops).header l :: rest := by
    intro l hl
    obtain ⟨header, rest, heq⟩ := List.exists_cons_of_ne_nil (hblocks _ (hloop l hl)).1
    refine ⟨rest, ?_⟩
    change loops.getD l [] = (loops.getD l []).headD 0 :: rest
    rw [show loops.getD l [] = header :: rest from heq]
    rfl
  refine ⟨hcons, fun l hl => (hblocks _ (hloop l hl)).2.1, ?_, ?_, ?_, ?_, ?_⟩
  · intro l _ b
    simp only [within_nest_iff]
    constructor
    · intro hb
      rw [mem_blocks_nest hinner] at hb
      refine ⟨(loops.takeWhile fun blocks => b ∈ blocks).length - 1, ?_, by omega⟩
      rw [loopFor_nest_iff hinner, mem_blocks_nest hinner, mem_blocks_nest hinner]
      omega
    · rintro ⟨m, hb, hm⟩
      have hb := ((loopFor_nest_iff hinner b m).mp hb).1
      rw [mem_blocks_nest hinner] at hb ⊢
      omega
  · intro l hl
    obtain ⟨rest, heq⟩ := hcons l hl
    have hmem : (nest loops).header l ∈ (nest loops).blocks l := heq ▸ List.mem_cons_self
    refine (loopFor_nest_iff hinner _ l).mpr ⟨hmem, fun hmem' => ?_⟩
    -- the blocks of the next loop are behind the header, which comes once
    obtain ⟨hl₁, heq₁⟩ := blocks_nest_mem hmem
    obtain ⟨hl₂, heq₂⟩ := blocks_nest_mem hmem'
    have htail := List.pairwise_iff_getElem.mp hinner l (l + 1) hl₁ hl₂ (Nat.lt_succ_self l)
      (heq₂ ▸ hmem')
    rw [← heq₁, heq, List.tail_cons] at htail
    have hnodup := (hblocks _ (hloop l hl)).2.1
    rw [heq, List.nodup_cons] at hnodup
    exact hnodup.1 htail
  · intro b m hb
    have hmem := ((loopFor_nest_iff hinner b m).mp hb).1
    exact (hblocks _ (hloop m (.of_loopFor hb))).2.2.1 hmem
  · intro m p hp hwithin
    rw [within_nest_iff] at hwithin
    cases m with
    | zero => cases hp
    | succ m =>
        cases hp
        omega
  · intro b hb l hl hmem
    obtain ⟨rest, heq⟩ := hcons l hl
    have hhead := (hblocks _ (hloop l hl)).2.2.2 b hb hmem
    rw [heq] at hhead
    exact Option.some.inj hhead

end nest

namespace WellFormed

variable {ids : List ℕ} (h : li.WellFormed ids)

include h

theorem header_mem {l : ℕ} (hl : li.IsLoop l) : li.header l ∈ li.blocks l :=
  (h.mem_blocks l hl _).mpr ⟨l, h.loopFor_header l hl, .refl l⟩

theorem blocks_subset {l : ℕ} (hl : li.IsLoop l) : li.blocks l ⊆ ids := by
  intro b hb
  obtain ⟨m, hm, -⟩ := (h.mem_blocks l hl b).mp hb
  exact h.loopFor_mem b m hm

theorem length_lt {m p : ℕ} (hm : li.IsLoop m) (hp : li.parentLoop m = some p) :
    (li.blocks m).length < (li.blocks p).length := by
  have hp' := hm.parent hp
  have hsub : li.header p :: li.blocks m ⊆ li.blocks p := by
    intro b hb
    rcases List.mem_cons.mp hb with rfl | hb
    · exact h.header_mem hp'
    · obtain ⟨k, hk, hwithin⟩ := (h.mem_blocks m hm b).mp hb
      exact (h.mem_blocks p hp' b).mpr ⟨k, hk, hwithin.trans (.parent hp (.refl p))⟩
  have hnot : li.header p ∉ li.blocks m := by
    intro hmem
    obtain ⟨k, hk, hwithin⟩ := (h.mem_blocks m hm _).mp hmem
    rw [h.loopFor_header p hp'] at hk
    cases hk
    exact h.acyclic m p hp hwithin
  have hnodup : (li.header p :: li.blocks m).Nodup := List.nodup_cons.mpr ⟨hnot, h.nodup m hm⟩
  exact (List.subperm_of_subset hnodup hsub).length_le

theorem disjoint {l c c' b : ℕ} (hc : li.IsLoop c) (hc' : li.IsLoop c')
    (hl : li.parentLoop c = some l) (hl' : li.parentLoop c' = some l) (hb : b ∈ li.blocks c)
    (hb' : b ∈ li.blocks c') : c = c' := by
  obtain ⟨m, hm, hwithin⟩ := (h.mem_blocks c hc b).mp hb
  obtain ⟨m', hm', hwithin'⟩ := (h.mem_blocks c' hc' b).mp hb'
  cases hm.symm.trans hm'
  have hnot : ∀ {c c' : ℕ}, li.parentLoop c = some l → li.parentLoop c' = some l →
      li.Within c c' → c = c' := by
    intro c c' hl hl' hwithin
    cases hwithin with
    | refl => rfl
    | parent hp hp' =>
        rw [hl] at hp
        cases hp
        exact absurd hp' (h.acyclic c' l hl')
  rcases hwithin.linear hwithin' with hcc | hcc
  · exact hnot hl hl' hcc
  · exact (hnot hl' hl hcc).symm

theorem exists_top {m : ℕ} (hm : li.IsLoop m) : ∃ t, li.parentLoop t = none ∧ li.Within m t := by
  have hle : ∀ {m}, li.IsLoop m → (li.blocks m).length ≤ ids.length := fun hm =>
    (List.subperm_of_subset (h.nodup _ hm) (h.blocks_subset hm)).length_le
  generalize hn : ids.length - (li.blocks m).length = n
  induction n using Nat.strongRecOn generalizing m with
  | ind n ih =>
      cases hp : li.parentLoop m with
      | none => exact ⟨m, hp, .refl m⟩
      | some p =>
          have hlt := h.length_lt hm hp
          have hle' := hle (hm.parent hp)
          obtain ⟨t, ht, hwithin⟩ := ih _ (by omega) (hm.parent hp) rfl
          exact ⟨t, ht, .parent hp hwithin⟩

theorem loopOrder_spec {n l : ℕ} (hl : li.IsLoop l) (hn : (li.blocks l).length ≤ n) :
    (li.loopOrder n l).Nodup ∧ ∀ b, b ∈ li.loopOrder n l ↔ b ∈ li.blocks l := by
  induction n generalizing l with
  | zero =>
      obtain ⟨rest, heq⟩ := h.blocks_eq l hl
      rw [heq] at hn
      cases hn
  | succ n ih =>
      have hinner : ∀ {c}, li.IsLoop c → li.parentLoop c = some l →
          (li.loopOrder n c).Nodup ∧ ∀ b, b ∈ li.loopOrder n c ↔ b ∈ li.blocks c := by
        intro c hc hp
        have hlt := h.length_lt hc hp
        exact ih hc (by omega)
      -- what comes at a block is the block itself or a whole loop in `l`
      have hmem : ∀ {a b}, b ∈ li.blockOrder (li.loopOrder n) l a →
          (li.loopFor a = some l ∧ b = a) ∨
            ∃ c, li.IsLoop c ∧ a = li.header c ∧ li.parentLoop c = some l ∧ b ∈ li.blocks c := by
        intro a b hb
        unfold blockOrder at hb
        cases hm : li.loopFor a with
        | none =>
            rw [hm] at hb
            cases hb
        | some m =>
            rw [hm] at hb
            simp only at hb
            split_ifs at hb with heq hchild
            · exact .inl ⟨heq ▸ rfl, List.mem_singleton.mp hb⟩
            · have hloop := IsLoop.of_loopFor hm
              exact .inr ⟨m, hloop, hchild.1, hchild.2.symm,
                ((hinner hloop hchild.2.symm).2 b).mp hb⟩
            · cases hb
      have hown : ∀ {c b}, li.parentLoop c = some l → li.IsLoop c → li.loopFor b = some l →
          b ∉ li.blocks c := by
        intro c b hp hc hb hmem
        obtain ⟨m, hm, hwithin⟩ := (h.mem_blocks c hc b).mp hmem
        rw [hb] at hm
        cases hm
        exact h.acyclic c l hp hwithin
      refine ⟨List.nodup_flatMap.mpr ⟨fun a ha => ?_, ?_⟩, fun b => ?_⟩
      · unfold blockOrder
        cases hm : li.loopFor a with
        | none => exact List.nodup_nil
        | some m =>
            simp only
            split_ifs with heq hchild
            · exact List.nodup_singleton a
            · exact (hinner (.of_loopFor hm) hchild.2.symm).1
            · exact List.nodup_nil
      · refine (h.nodup l hl).pairwise_of_forall_ne fun a ha a' ha' hne => ?_
        intro b hb hb'
        rcases hmem hb with ⟨hfor, rfl⟩ | ⟨c, hc, rfl, hp, hbc⟩
        · rcases hmem hb' with ⟨-, rfl⟩ | ⟨c, hc, -, hp, hbc⟩
          · exact hne rfl
          · exact hown hp hc hfor hbc
        · rcases hmem hb' with ⟨hfor, rfl⟩ | ⟨c', hc', rfl, hp', hbc'⟩
          · exact hown hp hc hfor hbc
          · exact hne (congrArg li.header (h.disjoint hc hc' hp hp' hbc hbc'))
      · rw [loopOrder, List.mem_flatMap]
        constructor
        · rintro ⟨a, ha, hb⟩
          rcases hmem hb with ⟨-, rfl⟩ | ⟨c, hc, -, hp, hbc⟩
          · exact ha
          · obtain ⟨m, hm, hwithin⟩ := (h.mem_blocks c hc b).mp hbc
            exact (h.mem_blocks l hl b).mpr ⟨m, hm, hwithin.trans (.parent hp (.refl l))⟩
        · intro hb
          obtain ⟨m, hm, hwithin⟩ := (h.mem_blocks l hl b).mp hb
          by_cases hml : m = l
          · refine ⟨b, hb, ?_⟩
            simp [blockOrder, hm, hml]
          · obtain ⟨c, hp, hmc⟩ := hwithin.exists_child hml
            have hc : li.IsLoop c := ⟨b, m, hm, hmc⟩
            have hcl : l ≠ c := by
              rintro rfl
              exact h.acyclic l l hp (.refl l)
            refine ⟨li.header c, (h.mem_blocks l hl _).mpr
              ⟨c, h.loopFor_header c hc, .parent hp (.refl l)⟩, ?_⟩
            simp only [blockOrder, h.loopFor_header c hc, if_neg hcl, hp, and_self, if_true]
            exact ((hinner hc hp).2 b).mpr ((h.mem_blocks c hc b).mpr ⟨m, hm, hmc⟩)

theorem bodyOrder_perm (hids : ids.Nodup) : (li.bodyOrder ids).Perm ids := by
  have hspec : ∀ {l}, li.IsLoop l → (li.loopOrder ids.length l).Nodup ∧
      ∀ b, b ∈ li.loopOrder ids.length l ↔ b ∈ li.blocks l := fun hl =>
    h.loopOrder_spec hl (List.subperm_of_subset (h.nodup _ hl) (h.blocks_subset hl)).length_le
  have hmem : ∀ {a b}, b ∈ li.topOrder ids.length a → (li.loopFor a = none ∧ b = a) ∨
      ∃ t, li.IsLoop t ∧ a = li.header t ∧ li.parentLoop t = none ∧ b ∈ li.blocks t := by
    intro a b hb
    unfold topOrder at hb
    cases hm : li.loopFor a with
    | none =>
        rw [hm] at hb
        exact .inl ⟨rfl, List.mem_singleton.mp hb⟩
    | some t =>
        rw [hm] at hb
        simp only at hb
        split_ifs at hb with htop
        · have hloop := IsLoop.of_loopFor hm
          exact .inr ⟨t, hloop, htop.1.symm, htop.2, ((hspec hloop).2 b).mp hb⟩
        · cases hb
  have hsame : ∀ {t t' b}, li.IsLoop t → li.IsLoop t' → li.parentLoop t = none →
      li.parentLoop t' = none → b ∈ li.blocks t → b ∈ li.blocks t' → t = t' := by
    intro t t' b ht ht' hp hp' hb hb'
    obtain ⟨m, hm, hwithin⟩ := (h.mem_blocks t ht b).mp hb
    obtain ⟨m', hm', hwithin'⟩ := (h.mem_blocks t' ht' b).mp hb'
    cases hm.symm.trans hm'
    have htop : ∀ {t t'}, li.parentLoop t = none → li.Within t t' → t = t' := by
      intro t t' hp hwithin
      cases hwithin with
      | refl => rfl
      | parent hq _ =>
          rw [hp] at hq
          cases hq
    rcases hwithin.linear hwithin' with htt | htt
    · exact htop hp htt
    · exact (htop hp' htt).symm
  have hout : ∀ {t b}, li.IsLoop t → li.loopFor b = none → b ∉ li.blocks t := by
    intro t b ht hb hmem
    obtain ⟨m, hm, -⟩ := (h.mem_blocks t ht b).mp hmem
    rw [hb] at hm
    cases hm
  refine (List.perm_ext_iff_of_nodup (List.nodup_flatMap.mpr ⟨fun a ha => ?_, ?_⟩) hids).mpr
    fun b => ?_
  · unfold topOrder
    cases hm : li.loopFor a with
    | none => exact List.nodup_singleton a
    | some t =>
        simp only
        split_ifs
        · exact (hspec (.of_loopFor hm)).1
        · exact List.nodup_nil
  · refine hids.pairwise_of_forall_ne fun a ha a' ha' hne => ?_
    intro b hb hb'
    rcases hmem hb with ⟨hfor, rfl⟩ | ⟨t, ht, rfl, hp, hbt⟩
    · rcases hmem hb' with ⟨-, rfl⟩ | ⟨t, ht, -, hp, hbt⟩
      · exact hne rfl
      · exact hout ht hfor hbt
    · rcases hmem hb' with ⟨hfor, rfl⟩ | ⟨t', ht', rfl, hp', hbt'⟩
      · exact hout ht hfor hbt
      · exact hne (congrArg li.header (hsame ht ht' hp hp' hbt hbt'))
  · rw [List.mem_flatMap]
    constructor
    · rintro ⟨a, ha, hb⟩
      rcases hmem hb with ⟨-, rfl⟩ | ⟨t, ht, -, -, hbt⟩
      · exact ha
      · exact h.blocks_subset ht hbt
    · intro hb
      cases hm : li.loopFor b with
      | none => exact ⟨b, hb, by simp [topOrder, hm]⟩
      | some m =>
          obtain ⟨t, hp, hwithin⟩ := h.exists_top (.of_loopFor hm)
          have ht : li.IsLoop t := ⟨b, m, hm, hwithin⟩
          refine ⟨li.header t, h.blocks_subset ht (h.header_mem ht), ?_⟩
          simp only [topOrder, h.loopFor_header t ht, hp, and_self, if_true]
          exact ((hspec ht).2 b).mpr ((h.mem_blocks t ht b).mpr ⟨m, hm, hwithin⟩)

theorem head_loopOrder {n l : ℕ} (hl : li.IsLoop l) :
    ∃ rest, li.loopOrder (n + 1) l = li.header l :: rest := by
  obtain ⟨rest, heq⟩ := h.blocks_eq l hl
  refine ⟨rest.flatMap (li.blockOrder (li.loopOrder n) l), ?_⟩
  rw [loopOrder, heq, List.flatMap_cons, blockOrder, h.loopFor_header l hl]
  simp

theorem head_bodyOrder : (li.bodyOrder ids).head? = ids.head? := by
  cases hids : ids with
  | nil => rfl
  | cons b rest =>
      have hentry := h.entry b (by simp [hids])
      simp only [bodyOrder, List.flatMap_cons, List.head?_cons]
      cases hm : li.loopFor b with
      | none => simp [topOrder, hm]
      | some m =>
          have hloop := IsLoop.of_loopFor hm
          have hheader := hentry m hloop ((h.mem_blocks m hloop b).mpr ⟨m, hm, .refl m⟩)
          have htop : li.parentLoop m = none := by
            cases hp : li.parentLoop m with
            | none => rfl
            | some p =>
                have hploop := hloop.parent hp
                have hp' := hentry p hploop ((h.mem_blocks p hploop b).mpr
                  ⟨m, hm, .parent hp (.refl p)⟩)
                have hfor := h.loopFor_header p hploop
                rw [hp', hm] at hfor
                cases hfor
                exact absurd (.refl m) (h.acyclic m m hp)
          obtain ⟨rest', horder⟩ := h.head_loopOrder (n := rest.length) hloop
          rw [topOrder, hm]
          simp only [hheader, htop, and_self, if_true, List.length_cons, horder, List.cons_append,
            List.head?_cons]

end WellFormed

end LoopInfo

end Llxvm.Backend
