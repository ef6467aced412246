import Mathlib.Data.List.Basic
import Mathlib.Data.List.Nodup

/-!
# Labelled code

Texts whose lines act on a state, go to labels and throw exceptions.  Of a run one sees the observed
lines, the labels that it comes to and how it ends.  A test that jumps can be replaced by the
opposite test over a jump: nothing that is seen changes.
-/

namespace LabelledCode

/-- What a line does in a state. -/
inductive Outcome (L σ ε ρ : Type)
  | next (s : σ)
  | jump (l : L) (s : σ)
  | throw (e : ε) (s : σ)
  | leave (r : ρ)

structure Machine (ι L σ ε ρ : Type) where
  exec : ι → σ → Outcome L σ ε ρ → Prop
  label : ι → Option L
  /-- Between the first two labels, exceptions go to the third one. -/
  catching : ι → Option (L × L × L)
  /-- The state at the beginning of the handler of an exception. -/
  caught : ε → σ → Option σ
  observed : ι → Bool

variable {ι L σ ε ρ : Type} (M : Machine ι L σ ε ρ)

namespace Machine

/-! ## Runs -/

def labels (ls : List ι) : List L := ls.filterMap M.label

def trace (i : ι) : List ι := if M.observed i then [i] else []

/-- The lines `rest` of the text begin with the label. -/
def At (all : List ι) (l : L) (rest : List ι) : Prop :=
  rest <:+ all ∧ ∃ i is, rest = i :: is ∧ M.label i = some l

/-- Exceptions of the first line of `rest` go to the label `handler`. -/
def Covers (all rest : List ι) (handler : L) : Prop :=
  ∃ c ∈ all, ∃ start stop, M.catching c = some (start, stop, handler) ∧
    ∃ pre, all = pre ++ rest ∧ start ∈ M.labels pre ∧ stop ∈ M.labels rest.tail

/-- A position is given by the lines that follow. -/
inductive Step (all : List ι) : List ι × σ → List ι → List ι × σ → Prop
  | next {i : ι} {rest : List ι} {s s' : σ} (h : M.exec i s (.next s')) :
      Step all (i :: rest, s) (M.trace i) (rest, s')
  | jump {i : ι} {rest rest' : List ι} {s s' : σ} {l : L} (h : M.exec i s (.jump l s'))
      (hat : M.At all l rest') : Step all (i :: rest, s) (M.trace i) (rest', s')
  | throw {i : ι} {rest rest' : List ι} {s s' s'' : σ} {e : ε} {handler : L}
      (h : M.exec i s (.throw e s')) (hcovers : M.Covers all (i :: rest) handler)
      (hcaught : M.caught e s' = some s'') (hat : M.At all handler rest') :
      Step all (i :: rest, s) (M.trace i) (rest', s'')

inductive Path (all : List ι) : List ι × σ → List ι → List ι × σ → Prop
  | refl (p : List ι × σ) : Path all p [] p
  | head {p q r : List ι × σ} {tr tr' : List ι} (h : M.Step all p tr q)
      (hpath : Path all q tr' r) : Path all p (tr ++ tr') r

/-- The text is left at a line, with a result or with an exception. -/
inductive Ends (all : List ι) : List ι × σ → List ι → ρ ⊕ (ε × σ) → Prop
  | leave {i : ι} {rest : List ι} {s : σ} {r : ρ} (h : M.exec i s (.leave r)) :
      Ends all (i :: rest, s) (M.trace i) (.inl r)
  | throw {i : ι} {rest : List ι} {s s' : σ} {e : ε} (h : M.exec i s (.throw e s'))
      (hno : ∀ handler, M.Covers all (i :: rest) handler → M.caught e s' = none) :
      Ends all (i :: rest, s) (M.trace i) (.inr (e, s'))

/-- The position at a label, or at the beginning of the text. -/
def Start (all : List ι) : Option L → List ι → Prop
  | none, rest => rest = all
  | some l, rest => M.At all l rest

/-- From `start` the text executes the observed lines `tr`. -/
def Executes (all : List ι) (start : Option L) (s : σ) (tr : List ι) : Prop :=
  ∃ p q, M.Start all start p ∧ M.Path all (p, s) tr q

/-- Then it is at the label `l`. -/
def Reaches (all : List ι) (start : Option L) (s : σ) (tr : List ι) (l : L) (s' : σ) : Prop :=
  ∃ p q, M.Start all start p ∧ M.Path all (p, s) tr (q, s') ∧ M.At all l q

/-- With the last of them it is left. -/
def Finishes (all : List ι) (start : Option L) (s : σ) (tr : List ι) (x : ρ ⊕ (ε × σ)) : Prop :=
  ∃ p q tr₁ tr₂, M.Start all start p ∧ M.Path all (p, s) tr₁ q ∧ M.Ends all q tr₂ x ∧
    tr = tr₁ ++ tr₂

/-- From the beginning and from all labels of the first text, the texts cannot be told apart. -/
structure Equivalent (all all' : List ι) : Prop where
  executes : ∀ start : Option L, (∀ k ∈ start, k ∈ M.labels all) → ∀ s tr,
    (M.Executes all start s tr ↔ M.Executes all' start s tr)
  reaches : ∀ start : Option L, (∀ k ∈ start, k ∈ M.labels all) → ∀ s tr, ∀ l ∈ M.labels all,
    ∀ s', (M.Reaches all start s tr l s' ↔ M.Reaches all' start s tr l s')
  finishes : ∀ start : Option L, (∀ k ∈ start, k ∈ M.labels all) → ∀ s tr x,
    (M.Finishes all start s tr x ↔ M.Finishes all' start s tr x)

variable {M} {all all' : List ι}

@[simp] theorem labels_append (ls js : List ι) : M.labels (ls ++ js) = M.labels ls ++ M.labels js :=
  List.filterMap_append

theorem mem_labels {ls : List ι} {l : L} : l ∈ M.labels ls ↔ ∃ i ∈ ls, M.label i = some l :=
  List.mem_filterMap

theorem Path.append {p q r : List ι × σ} {tr tr' : List ι} (h : M.Path all p tr q)
    (h' : M.Path all q tr' r) : M.Path all p (tr ++ tr') r := by
  induction h with
  | refl p => exact h'
  | head hstep hpath ih =>
      rw [List.append_assoc]
      exact .head hstep (ih h')

theorem Path.of_step {p q : List ι × σ} {tr : List ι} (h : M.Step all p tr q) :
    M.Path all p tr q := by
  have hpath := Path.head h (.refl q)
  rwa [List.append_nil] at hpath

theorem At.exists_split {l : L} {rest : List ι} (h : M.At all l rest) :
    ∃ pre i is, all = pre ++ i :: is ∧ rest = i :: is ∧ M.label i = some l := by
  obtain ⟨⟨pre, rfl⟩, i, is, rfl, hlabel⟩ := h
  exact ⟨pre, i, is, rfl, rfl, hlabel⟩

/-- In a text without repeated labels a label has one position. -/
theorem At.unique (hnodup : (M.labels all).Nodup) {l : L} {rest rest' : List ι}
    (h : M.At all l rest) (h' : M.At all l rest') : rest = rest' := by
  obtain ⟨pre, i, is, rfl, rfl, hlabel⟩ := h.exists_split
  obtain ⟨pre', i', is', heq, rfl, hlabel'⟩ := h'.exists_split
  rcases List.append_eq_append_iff.mp heq with ⟨mid, rfl, hmid⟩ | ⟨mid, rfl, hmid⟩
  · cases mid with
    | nil => exact hmid
    | cons j mid =>
        obtain ⟨rfl, rfl⟩ := List.cons_eq_cons.mp hmid
        simp [labels, hlabel, hlabel', List.nodup_append] at hnodup
  · cases mid with
    | nil => exact hmid.symm
    | cons j mid =>
        obtain ⟨rfl, rfl⟩ := List.cons_eq_cons.mp hmid
        simp [labels, hlabel, hlabel', List.nodup_append] at hnodup

end Machine

/-! ## Inverted tests -/

/-- Two lines that do the same, and have nothing to do with the labels that are `fresh`. -/
structure Same (fresh : L → Prop) (i i' : ι) : Prop where
  exec : M.exec i = M.exec i'
  label : M.label i = M.label i'
  catching : M.catching i = M.catching i'
  trace : M.trace i = M.trace i'
  notFresh : ∀ l, M.label i = some l → ¬ fresh l
  jumps : ∀ s l s', M.exec i s (.jump l s') → ¬ fresh l
  handles : ∀ start stop handler, M.catching i = some (start, stop, handler) →
    ¬ fresh start ∧ ¬ fresh stop ∧ ¬ fresh handler

/-- The line does not define a label, is no range of a handler and is not observed. -/
structure Silent (i : ι) : Prop where
  label : M.label i = none
  catching : M.catching i = none
  trace : M.trace i = []

/-- The test `i` jumps to `l` if the value is true; `j` jumps to `t` if it is false, over the jump
`g` to `l`, to the line `b`. -/
structure InvertedTest (fresh : L → Prop) (l t : L) (value : σ → Option (Bool × σ)) (i j g b : ι) :
    Prop where
  target : ¬ fresh l
  fresh : fresh t
  test : ∀ s o, M.exec i s o ↔ ∃ p, value s = some p ∧ o = if p.1 then .jump l p.2 else .next p.2
  inverse : ∀ s o, M.exec j s o ↔ ∃ p, value s = some p ∧ o = if p.1 then .next p.2 else .jump t p.2
  goto : ∀ s o, M.exec g s o ↔ o = .jump l s
  fall : ∀ s o, M.exec b s o ↔ o = .next s
  silent : Silent M i ∧ Silent M j ∧ Silent M g
  label : M.label b = some t
  catching : M.catching b = none
  trace : M.trace b = []

/-- Some tests of the first text are inverted in the second one, over labels that are `fresh`. -/
inductive Inverts (fresh : L → Prop) : List ι → List ι → Prop
  | nil : Inverts fresh [] []
  | keep {i i' : ι} {ls ls' : List ι} (h : Same M fresh i i') (hrest : Inverts fresh ls ls') :
      Inverts fresh (i :: ls) (i' :: ls')
  | test {l t : L} {value : σ → Option (Bool × σ)} {i j g b : ι} {ls ls' : List ι}
      (h : InvertedTest M fresh l t value i j g b) (hrest : Inverts fresh ls ls') :
      Inverts fresh (i :: ls) (j :: g :: b :: ls')

namespace Inverts

variable {M} {fresh : L → Prop} {ls ls' js js' : List ι}

theorem append (h : Inverts M fresh ls ls') (h' : Inverts M fresh js js') :
    Inverts M fresh (ls ++ js) (ls' ++ js') := by
  induction h with
  | nil => exact h'
  | keep hsame hrest ih => exact .keep hsame ih
  | test htest hrest ih => exact .test htest ih

theorem mem_labels_iff (h : Inverts M fresh ls ls') {l : L} (hl : ¬ fresh l) :
    l ∈ M.labels ls' ↔ l ∈ M.labels ls := by
  induction h with
  | nil => rfl
  | @keep i i' ls ls' hsame hrest ih =>
      simp only [Machine.mem_labels, List.exists_mem_cons_iff] at ih ⊢
      rw [ih, hsame.label]
  | @test l' t value i j g b ls ls' htest hrest ih =>
      have ht : t ≠ l := by
        rintro rfl
        exact hl htest.fresh
      obtain ⟨hi, hj, hg⟩ := htest.silent
      simp only [Machine.mem_labels, List.exists_mem_cons_iff] at ih ⊢
      simp [ih, hi.label, hj.label, hg.label, htest.label, ht]

theorem not_fresh (h : Inverts M fresh ls ls') {l : L} (hl : l ∈ M.labels ls) : ¬ fresh l := by
  induction h with
  | nil => cases hl
  | @keep i i' ls ls' hsame hrest ih =>
      simp only [Machine.mem_labels, List.exists_mem_cons_iff] at ih hl
      exact hl.elim (hsame.notFresh l) ih
  | @test l' t value i j g b ls ls' htest hrest ih =>
      obtain ⟨hi, -, -⟩ := htest.silent
      simp only [Machine.mem_labels, List.exists_mem_cons_iff, hi.label, reduceCtorEq,
        false_or] at ih hl
      exact ih hl

theorem exists_catching_iff (h : Inverts M fresh ls ls') {x : L × L × L} :
    (∃ c ∈ ls', M.catching c = some x) ↔ ∃ c ∈ ls, M.catching c = some x := by
  induction h with
  | nil => rfl
  | keep hsame hrest ih =>
      rw [List.exists_mem_cons_iff, List.exists_mem_cons_iff, ih, hsame.catching]
  | test htest hrest ih =>
      obtain ⟨hi, hj, hg⟩ := htest.silent
      simp only [List.exists_mem_cons_iff, ih, hi.catching, hj.catching, hg.catching,
        htest.catching, reduceCtorEq, false_or]

theorem handles (h : Inverts M fresh ls ls') {c : ι} (hc : c ∈ ls) {start stop handler : L}
    (hcatch : M.catching c = some (start, stop, handler)) :
    ¬ fresh start ∧ ¬ fresh stop ∧ ¬ fresh handler := by
  induction h with
  | nil => cases hc
  | keep hsame hrest ih =>
      rcases List.mem_cons.mp hc with rfl | hc
      · exact hsame.handles start stop handler hcatch
      · exact ih hc
  | test htest hrest ih =>
      rcases List.mem_cons.mp hc with rfl | hc
      · cases htest.silent.1.catching.symm.trans hcatch
      · exact ih hc

theorem not_fresh_handler (h : Inverts M fresh ls ls') {rest : List ι} {handler : L}
    (hcovers : M.Covers ls rest handler) : ¬ fresh handler := by
  obtain ⟨c, hc, start, stop, hcatch, -⟩ := hcovers
  exact (h.handles hc hcatch).2.2

/-- A position of the first text has one in the second. -/
theorem exists_split (h : Inverts M fresh (ls ++ js) ls') :
    ∃ pre' rest', ls' = pre' ++ rest' ∧ Inverts M fresh ls pre' ∧ Inverts M fresh js rest' := by
  induction ls generalizing ls' with
  | nil => exact ⟨[], ls', rfl, .nil, h⟩
  | cons i ls ih =>
      cases h with
      | @keep _ i' _ ls' hsame hrest =>
          obtain ⟨pre', rest', rfl, hpre, hjs⟩ := ih hrest
          exact ⟨i' :: pre', rest', rfl, .keep hsame hpre, hjs⟩
      | @test _ _ _ _ j g b _ ls' htest hrest =>
          obtain ⟨pre', rest', rfl, hpre, hjs⟩ := ih hrest
          exact ⟨j :: g :: b :: pre', rest', rfl, .test htest hpre, hjs⟩

/-- A position of the second text behind a label that is not fresh has one in the first. -/
theorem exists_split_of_label {pre' is' : List ι} {i' : ι} {l : L}
    (h : Inverts M fresh ls (pre' ++ i' :: is')) (hlabel : M.label i' = some l) (hl : ¬ fresh l) :
    ∃ pre i is, ls = pre ++ i :: is ∧ M.label i = some l ∧ Inverts M fresh pre pre' ∧
      Inverts M fresh (i :: is) (i' :: is') := by
  generalize hall : pre' ++ i' :: is' = all' at h
  induction h generalizing pre' with
  | nil => simp at hall
  | @keep k k' ks ks' hsame hrest ih =>
      cases pre' with
      | nil =>
          obtain ⟨rfl, rfl⟩ := List.cons_eq_cons.mp hall
          exact ⟨[], k, ks, rfl, hsame.label.trans hlabel, .nil, .keep hsame hrest⟩
      | cons p pre' =>
          obtain ⟨rfl, htail⟩ := List.cons_eq_cons.mp hall
          obtain ⟨pre, i, is, rfl, hi, hpre, his⟩ := ih htail
          exact ⟨k :: pre, i, is, rfl, hi, .keep hsame hpre, his⟩
  | @test l' t value k j g b ks ks' htest hrest ih =>
      obtain ⟨-, hj, hg⟩ := htest.silent
      -- none of the three lines has the label
      have hne : i' ≠ j ∧ i' ≠ g ∧ i' ≠ b := by
        refine ⟨?_, ?_, ?_⟩ <;> rintro rfl
        · cases hj.label.symm.trans hlabel
        · cases hg.label.symm.trans hlabel
        · cases htest.label.symm.trans hlabel
          exact hl htest.fresh
      rcases pre' with _ | ⟨p, _ | ⟨p', _ | ⟨p'', pre'⟩⟩⟩
      · exact (hne.1 (List.cons_eq_cons.mp hall).1).elim
      · exact (hne.2.1 (List.cons_eq_cons.mp (List.cons_eq_cons.mp hall).2).1).elim
      · simp only [List.cons_append, List.nil_append, List.cons.injEq] at hall
        exact (hne.2.2 hall.2.2.1).elim
      · simp only [List.cons_append, List.cons.injEq] at hall
        obtain ⟨rfl, rfl, rfl, htail⟩ := hall
        obtain ⟨pre, i, is, rfl, hi, hpre, his⟩ := ih htail
        exact ⟨k :: pre, i, is, rfl, hi, .test htest hpre, his⟩

end Inverts

/-! ## The simulation -/

section simulation

variable (fresh : L → Prop) (all all' : List ι)

/-- A position of the first text with its position in the second. -/
def Matches (rest rest' : List ι) : Prop :=
  ∃ pre pre', all = pre ++ rest ∧ all' = pre' ++ rest' ∧ Inverts M fresh pre pre' ∧
    Inverts M fresh rest rest'

/-- The second text is at the position of the first one, or in the lines of a test that the first
one has yet to take. -/
inductive Follows : List ι × σ → List ι × σ → Prop
  | same {rest rest' : List ι} {s : σ} (h : Matches M fresh all all' rest rest') :
      Follows (rest, s) (rest', s)
  | jumping {l t : L} {value : σ → Option (Bool × σ)} {i j g b : ι} {rest rest' : List ι} {s s' : σ}
      (htest : InvertedTest M fresh l t value i j g b) (hvalue : value s = some (true, s')) :
      Follows (i :: rest, s) (g :: b :: rest', s')
  | falling {l t : L} {value : σ → Option (Bool × σ)} {i j g b : ι} {rest rest' : List ι} {s s' : σ}
      (htest : InvertedTest M fresh l t value i j g b) (hvalue : value s = some (false, s'))
      (h : Matches M fresh all all' rest rest') : Follows (i :: rest, s) (b :: rest', s')

variable {M fresh all all'}

theorem Matches.tail {i i' : ι} {rest rest' : List ι}
    (h : Matches M fresh all all' (i :: rest) (i' :: rest')) (hsame : Same M fresh i i')
    (hrest : Inverts M fresh rest rest') : Matches M fresh all all' rest rest' := by
  obtain ⟨pre, pre', hall, hall', hpre, -⟩ := h
  refine ⟨pre ++ [i], pre' ++ [i'], by simp [hall], by simp [hall'], ?_, hrest⟩
  exact hpre.append (.keep hsame .nil)

theorem Matches.tail_test {l t : L} {value : σ → Option (Bool × σ)} {i j g b : ι}
    {rest rest' : List ι} (h : Matches M fresh all all' (i :: rest) (j :: g :: b :: rest'))
    (htest : InvertedTest M fresh l t value i j g b) (hrest : Inverts M fresh rest rest') :
    Matches M fresh all all' rest rest' := by
  obtain ⟨pre, pre', hall, hall', hpre, -⟩ := h
  refine ⟨pre ++ [i], pre' ++ [j, g, b], by simp [hall], by simp [hall'], ?_, hrest⟩
  exact hpre.append (.test htest .nil)

/-- Between two labels of the first text, the same lines stand in the second text. -/
theorem Matches.covers_iff (hinv : Inverts M fresh all all') {i i' : ι} {rest rest' : List ι}
    (h : Matches M fresh all all' (i :: rest) (i' :: rest')) (hrest : Inverts M fresh rest rest')
    (handler : L) :
    M.Covers all' (i' :: rest') handler ↔ M.Covers all (i :: rest) handler := by
  obtain ⟨pre, pre', hall, hall', hpre, -⟩ := h
  have hlabels : ∀ start stop, (∃ c ∈ all, M.catching c = some (start, stop, handler)) →
      ((∃ p, all' = p ++ i' :: rest' ∧ start ∈ M.labels p ∧ stop ∈ M.labels rest') ↔
        ∃ p, all = p ++ i :: rest ∧ start ∈ M.labels p ∧ stop ∈ M.labels rest) := by
    rintro start stop ⟨c, hc, hcatch⟩
    obtain ⟨hstart, hstop, -⟩ := hinv.handles hc hcatch
    constructor
    · rintro ⟨p, hp, hl, hl'⟩
      obtain rfl := List.append_cancel_right (hp.symm.trans hall')
      exact ⟨pre, hall, (hpre.mem_labels_iff hstart).mp hl, (hrest.mem_labels_iff hstop).mp hl'⟩
    · rintro ⟨p, hp, hl, hl'⟩
      obtain rfl := List.append_cancel_right (hp.symm.trans hall)
      exact ⟨pre', hall', (hpre.mem_labels_iff hstart).mpr hl, (hrest.mem_labels_iff hstop).mpr hl'⟩
  constructor
  · rintro ⟨c, hc, start, stop, hcatch, hrange⟩
    obtain ⟨d, hd, hcatch'⟩ := hinv.exists_catching_iff.mp ⟨c, hc, hcatch⟩
    exact ⟨d, hd, start, stop, hcatch', (hlabels start stop ⟨d, hd, hcatch'⟩).mp hrange⟩
  · rintro ⟨d, hd, start, stop, hcatch, hrange⟩
    obtain ⟨c, hc, hcatch'⟩ := hinv.exists_catching_iff.mpr ⟨d, hd, hcatch⟩
    exact ⟨c, hc, start, stop, hcatch', (hlabels start stop ⟨d, hd, hcatch⟩).mpr hrange⟩

variable (hinv : Inverts M fresh all all')

include hinv

theorem At.exists_right {l : L} {rest : List ι} (h : M.At all l rest) :
    ∃ rest', M.At all' l rest' ∧ Matches M fresh all all' rest rest' := by
  obtain ⟨pre, i, is, rfl, rfl, hlabel⟩ := h.exists_split
  obtain ⟨pre', rest', rfl, hpre, hrest⟩ := hinv.exists_split
  refine ⟨rest', ⟨List.suffix_append _ _, ?_⟩, pre, pre', rfl, rfl, hpre, hrest⟩
  cases hrest with
  | @keep _ i' _ is' hsame hrest => exact ⟨i', is', rfl, hsame.label.symm.trans hlabel⟩
  | test htest hrest => cases htest.silent.1.label.symm.trans hlabel

theorem At.exists_left {l : L} (hl : ¬ fresh l) {rest' : List ι} (h : M.At all' l rest') :
    ∃ rest, M.At all l rest ∧ Matches M fresh all all' rest rest' := by
  obtain ⟨pre', i', is', hall', rfl, hlabel⟩ := h.exists_split
  rw [hall'] at hinv
  obtain ⟨pre, i, is, rfl, hi, hpre, his⟩ := hinv.exists_split_of_label hlabel hl
  exact ⟨i :: is, ⟨List.suffix_append _ _, i, is, rfl, hi⟩, pre, pre', rfl, hall', hpre, his⟩

/-- A step of the first text, in the second one. -/
theorem Matches.step {rest rest' q : List ι} {s s' : σ} {tr : List ι}
    (h : Matches M fresh all all' rest rest') (hstep : M.Step all (rest, s) tr (q, s')) :
    ∃ q', M.Path all' (rest', s) tr (q', s') ∧ Matches M fresh all all' q q' := by
  have h₀ := h
  obtain ⟨pre, pre', hall, hall', hpre, hmatch⟩ := h
  cases hmatch with
  | nil => cases hstep
  | @keep i i' is is' hsame hrest =>
      have hcovers := h₀.covers_iff hinv hrest
      cases hstep with
      | next hexec =>
          rw [hsame.exec] at hexec
          rw [hsame.trace]
          exact ⟨is', .of_step (.next hexec), h₀.tail hsame hrest⟩
      | jump hexec hat =>
          rw [hsame.exec] at hexec
          rw [hsame.trace]
          obtain ⟨q', hat', hq⟩ := At.exists_right hinv hat
          exact ⟨q', .of_step (.jump hexec hat'), hq⟩
      | throw hexec hcov hcaught hat =>
          rw [hsame.exec] at hexec
          rw [hsame.trace]
          obtain ⟨q', hat', hq⟩ := At.exists_right hinv hat
          exact ⟨q', .of_step (.throw hexec ((hcovers _).mpr hcov) hcaught hat'), hq⟩
  | @test l t value i j g b is is' htest hrest =>
      obtain ⟨hi, hj, hg⟩ := htest.silent
      have hnext := h₀.tail_test htest hrest
      have hexec : ∀ o, M.exec i s o → ∃ p, value s = some p ∧
          o = if p.1 then .jump l p.2 else .next p.2 := fun o ho => (htest.test s o).mp ho
      cases hstep with
      | next hnext' =>
          obtain ⟨⟨v, s₁⟩, hvalue, heq⟩ := hexec _ hnext'
          cases v with
          | true => cases heq
          | false =>
              cases heq
              -- over the jump to the new label
              have hat : M.At all' t (b :: is') := by
                refine ⟨⟨pre' ++ [j, g], by simp [hall']⟩, b, is', rfl, htest.label⟩
              have hover : M.Step all' (j :: g :: b :: is', s) (M.trace j) (b :: is', s₁) :=
                .jump ((htest.inverse s _).mpr ⟨_, hvalue, rfl⟩) hat
              have hfall : M.Step all' (b :: is', s₁) (M.trace b) (is', s₁) :=
                .next ((htest.fall s₁ _).mpr rfl)
              have hpath := Machine.Path.head hover (.of_step hfall)
              rw [hj.trace, htest.trace] at hpath
              rw [hi.trace]
              exact ⟨is', hpath, hnext⟩
      | jump hjump hat =>
          obtain ⟨⟨v, s₁⟩, hvalue, heq⟩ := hexec _ hjump
          cases v with
          | false => cases heq
          | true =>
              cases heq
              obtain ⟨q', hat', hq⟩ := At.exists_right hinv hat
              have hfalls : M.Step all' (j :: g :: b :: is', s) (M.trace j) (g :: b :: is', s₁) :=
                .next ((htest.inverse s _).mpr ⟨_, hvalue, rfl⟩)
              have hgoto : M.Step all' (g :: b :: is', s₁) (M.trace g) (q', s₁) :=
                .jump ((htest.goto s₁ _).mpr rfl) hat'
              have hpath := Machine.Path.head hfalls (.of_step hgoto)
              rw [hj.trace, hg.trace] at hpath
              rw [hi.trace]
              exact ⟨q', hpath, hq⟩
      | throw hthrow hcov hcaught hat =>
          obtain ⟨⟨v, s₁⟩, -, heq⟩ := hexec _ hthrow
          cases v <;> cases heq

variable (hnodup : (M.labels all').Nodup)

include hnodup

/-- A step of the second text is one of the first, or is not seen. -/
theorem Follows.step {p p' q' : List ι × σ} {tr : List ι} (h : Follows M fresh all all' p p')
    (hstep : M.Step all' p' tr q') : (tr = [] ∧ Follows M fresh all all' p q') ∨
      ∃ q, M.Step all p tr q ∧ Follows M fresh all all' q q' := by
  cases h with
  | @jumping l t value i j g b rest rest' s s' htest hvalue =>
      obtain ⟨hi, -, hg⟩ := htest.silent
      have hjump : M.exec i s (.jump l s') := (htest.test s _).mpr ⟨_, hvalue, rfl⟩
      have hgoto : ∀ o, M.exec g s' o → o = .jump l s' := fun o => (htest.goto s' o).mp
      cases hstep with
      | next hexec => cases hgoto _ hexec
      | throw hexec hcov hcaught hat => cases hgoto _ hexec
      | jump hexec hat =>
          cases hgoto _ hexec
          obtain ⟨q, hat', hq⟩ := At.exists_left hinv htest.target hat
          rw [hg.trace, ← hi.trace]
          exact .inr ⟨(q, _), .jump hjump hat', .same hq⟩
  | @falling l t value i j g b rest rest' s s' htest hvalue hmatch =>
      have hnext : M.exec i s (.next s') := (htest.test s _).mpr ⟨_, hvalue, rfl⟩
      have hfall : ∀ o, M.exec b s' o → o = .next s' := fun o => (htest.fall s' o).mp
      cases hstep with
      | jump hexec hat => cases hfall _ hexec
      | throw hexec hcov hcaught hat => cases hfall _ hexec
      | next hexec =>
          cases hfall _ hexec
          rw [htest.trace, ← htest.silent.1.trace]
          exact .inr ⟨(rest, _), .next hnext, .same hmatch⟩
  | @same rest rest' s hmatch =>
      have h₀ := hmatch
      obtain ⟨pre, pre', hall, hall', hpre, hrests⟩ := hmatch
      cases hrests with
      | nil => cases hstep
      | @keep i i' is is' hsame hrest =>
          have htail := h₀.tail hsame hrest
          have hcovers := h₀.covers_iff hinv hrest
          refine .inr ?_
          cases hstep with
          | next hexec =>
              rw [← hsame.exec] at hexec
              rw [← hsame.trace]
              exact ⟨(is, _), .next hexec, .same htail⟩
          | jump hexec hat =>
              rw [← hsame.exec] at hexec
              rw [← hsame.trace]
              obtain ⟨q, hat', hq⟩ := At.exists_left hinv (hsame.jumps _ _ _ hexec) hat
              exact ⟨(q, _), .jump hexec hat', .same hq⟩
          | throw hexec hcov hcaught hat =>
              rw [← hsame.exec] at hexec
              rw [← hsame.trace]
              have hcov' := (hcovers _).mp hcov
              obtain ⟨q, hat', hq⟩ := At.exists_left hinv (hinv.not_fresh_handler hcov') hat
              exact ⟨(q, _), .throw hexec hcov' hcaught hat', .same hq⟩
      | @test l t value i j g b is is' htest hrest =>
          obtain ⟨hi, hj, hg⟩ := htest.silent
          have hexec : ∀ o, M.exec j s o → ∃ p, value s = some p ∧
              o = if p.1 then .next p.2 else .jump t p.2 := fun o ho => (htest.inverse s o).mp ho
          refine .inl ?_
          cases hstep with
          | next hnext =>
              obtain ⟨⟨v, s₁⟩, hvalue, heq⟩ := hexec _ hnext
              cases v with
              | false => cases heq
              | true =>
                  cases heq
                  exact ⟨hj.trace, .jumping htest hvalue⟩
          | jump hjump hat =>
              obtain ⟨⟨v, s₁⟩, hvalue, heq⟩ := hexec _ hjump
              cases v with
              | true => cases heq
              | false =>
                  cases heq
                  -- the new label is behind the jump
                  have hnew : M.At all' t (b :: is') :=
                    ⟨⟨pre' ++ [j, g], by simp [hall']⟩, b, is', rfl, htest.label⟩
                  rw [hat.unique hnodup hnew]
                  exact ⟨hj.trace, .falling htest hvalue (h₀.tail_test htest hrest)⟩
          | throw hthrow hcov hcaught hat =>
              obtain ⟨⟨v, s₁⟩, -, heq⟩ := hexec _ hthrow
              cases v <;> cases heq

theorem Follows.path {p p' q' : List ι × σ} {tr : List ι} (h : Follows M fresh all all' p p')
    (hpath : M.Path all' p' tr q') : ∃ q, M.Path all p tr q ∧ Follows M fresh all all' q q' := by
  induction hpath generalizing p with
  | refl p' => exact ⟨p, .refl p, h⟩
  | @head p' r' q' tr tr' hstep hpath ih =>
      rcases h.step hinv hnodup hstep with ⟨rfl, hfollows⟩ | ⟨r, hstep', hfollows⟩
      · exact ih hfollows
      · obtain ⟨q, hpath', hq⟩ := ih hfollows
        exact ⟨q, .head hstep' hpath', hq⟩

omit hnodup in
theorem Matches.path {rest rest' q : List ι} {s s' : σ} {tr : List ι}
    (h : Matches M fresh all all' rest rest') (hpath : M.Path all (rest, s) tr (q, s')) :
    ∃ q', M.Path all' (rest', s) tr (q', s') ∧ Matches M fresh all all' q q' := by
  generalize hp : (rest, s) = p at hpath
  generalize hq : (q, s') = r at hpath
  induction hpath generalizing rest rest' s with
  | refl p =>
      cases hp.trans hq.symm
      exact ⟨rest', .refl _, h⟩
  | @head p r' r tr tr' hstep hpath ih =>
      subst hp
      obtain ⟨mid, s₁⟩ := r'
      obtain ⟨mid', hfirst, hmid⟩ := h.step hinv hstep
      obtain ⟨q', hrest, hmatch⟩ := ih hmid rfl hq
      exact ⟨q', hfirst.append hrest, hmatch⟩

omit hinv hnodup in
/-- At a label that is not fresh the second text is where the first one is. -/
theorem Follows.at_label {p : List ι × σ} {q' : List ι} {s : σ} {l : L} (hl : ¬ fresh l)
    (h : Follows M fresh all all' p (q', s)) (hat : M.At all' l q') :
    ∃ q, p = (q, s) ∧ Matches M fresh all all' q q' := by
  obtain ⟨-, i, is, heq, hlabel⟩ := hat
  cases h with
  | same hmatch => exact ⟨_, rfl, hmatch⟩
  | jumping htest hvalue =>
      cases heq
      cases htest.silent.2.2.label.symm.trans hlabel
  | falling htest hvalue hmatch =>
      cases heq
      cases htest.label.symm.trans hlabel
      exact (hl htest.fresh).elim

omit hinv hnodup in
theorem Matches.at_iff {rest rest' : List ι} (h : Matches M fresh all all' rest rest') (l : L) :
    M.At all' l rest' ↔ M.At all l rest := by
  obtain ⟨pre, pre', hall, hall', hpre, hrests⟩ := h
  constructor
  · rintro ⟨-, i', is', rfl, hlabel⟩
    refine ⟨⟨pre, hall.symm⟩, ?_⟩
    cases hrests with
    | keep hsame hrest => exact ⟨_, _, rfl, hsame.label.trans hlabel⟩
    | test htest hrest => cases htest.silent.2.1.label.symm.trans hlabel
  · rintro ⟨-, i, is, rfl, hlabel⟩
    refine ⟨⟨pre', hall'.symm⟩, ?_⟩
    cases hrests with
    | keep hsame hrest => exact ⟨_, _, rfl, hsame.label.symm.trans hlabel⟩
    | test htest hrest => cases htest.silent.1.label.symm.trans hlabel

omit hnodup in
theorem Matches.ends {rest rest' : List ι} {s : σ} {tr : List ι} {x : ρ ⊕ (ε × σ)}
    (h : Matches M fresh all all' rest rest') (hends : M.Ends all (rest, s) tr x) :
    M.Ends all' (rest', s) tr x := by
  have h₀ := h
  obtain ⟨-, -, -, -, -, hrests⟩ := h
  cases hrests with
  | nil => cases hends
  | keep hsame hrest =>
      have hcovers := h₀.covers_iff hinv hrest
      cases hends with
      | leave hexec =>
          rw [hsame.trace]
          exact .leave (hsame.exec ▸ hexec)
      | throw hexec hno =>
          rw [hsame.trace]
          exact .throw (hsame.exec ▸ hexec) fun handler hcov =>
            hno handler ((hcovers handler).mp hcov)
  | test htest hrest =>
      cases hends with
      | leave hexec =>
          obtain ⟨⟨v, s₁⟩, -, heq⟩ := (htest.test s _).mp hexec
          cases v <;> cases heq
      | throw hexec hno =>
          obtain ⟨⟨v, s₁⟩, -, heq⟩ := (htest.test s _).mp hexec
          cases v <;> cases heq

omit hnodup in
theorem Follows.ends {p p' : List ι × σ} {tr : List ι} {x : ρ ⊕ (ε × σ)}
    (h : Follows M fresh all all' p p') (hends : M.Ends all' p' tr x) : M.Ends all p tr x := by
  cases h with
  | @jumping l t value i j g b rest rest' s s' htest hvalue =>
      cases hends with
      | leave hexec => cases (htest.goto s' _).mp hexec
      | throw hexec hno => cases (htest.goto s' _).mp hexec
  | @falling l t value i j g b rest rest' s s' htest hvalue hmatch =>
      cases hends with
      | leave hexec => cases (htest.fall s' _).mp hexec
      | throw hexec hno => cases (htest.fall s' _).mp hexec
  | @same rest rest' s hmatch =>
      have h₀ := hmatch
      obtain ⟨-, -, -, -, -, hrests⟩ := hmatch
      cases hrests with
      | nil => cases hends
      | keep hsame hrest =>
          have hcovers := h₀.covers_iff hinv hrest
          cases hends with
          | leave hexec =>
              rw [← hsame.trace]
              exact .leave (hsame.exec ▸ hexec)
          | throw hexec hno =>
              rw [← hsame.trace]
              exact .throw (hsame.exec ▸ hexec) fun handler hcov =>
                hno handler ((hcovers handler).mpr hcov)
      | test htest hrest =>
          cases hends with
          | leave hexec =>
              obtain ⟨⟨v, s₁⟩, -, heq⟩ := (htest.inverse s _).mp hexec
              cases v <;> cases heq
          | throw hexec hno =>
              obtain ⟨⟨v, s₁⟩, -, heq⟩ := (htest.inverse s _).mp hexec
              cases v <;> cases heq

omit hnodup in
theorem Start.exists_right {start : Option L} {p : List ι} (h : M.Start all start p) :
    ∃ p', M.Start all' start p' ∧ Matches M fresh all all' p p' := by
  cases start with
  | none =>
      obtain rfl := h
      exact ⟨all', rfl, [], [], rfl, rfl, .nil, hinv⟩
  | some l => exact At.exists_right hinv h

omit hnodup in
theorem Start.exists_left {start : Option L} (hstart : ∀ k ∈ start, k ∈ M.labels all) {p' : List ι}
    (h : M.Start all' start p') : ∃ p, M.Start all start p ∧ Matches M fresh all all' p p' := by
  cases start with
  | none =>
      obtain rfl := h
      exact ⟨all, rfl, [], [], rfl, rfl, .nil, hinv⟩
  | some l => exact At.exists_left hinv (hinv.not_fresh (hstart l rfl)) h

/-- Inverted tests do not change what is seen of a text. -/
theorem Inverts.equivalent : M.Equivalent all all' := by
  refine ⟨fun start hstart s tr => ?_, fun start hstart s tr l hl s' => ?_,
    fun start hstart s tr x => ?_⟩
  · constructor
    · rintro ⟨p, ⟨q, s'⟩, hp, hpath⟩
      obtain ⟨p', hp', hmatch⟩ := Start.exists_right hinv hp
      obtain ⟨q', hpath', -⟩ := hmatch.path hinv hpath
      exact ⟨p', (q', s'), hp', hpath'⟩
    · rintro ⟨p', q', hp', hpath'⟩
      obtain ⟨p, hp, hmatch⟩ := Start.exists_left hinv hstart hp'
      obtain ⟨q, hpath, -⟩ := (Follows.same hmatch).path hinv hnodup hpath'
      exact ⟨p, q, hp, hpath⟩
  · have hfresh := hinv.not_fresh hl
    constructor
    · rintro ⟨p, q, hp, hpath, hat⟩
      obtain ⟨p', hp', hmatch⟩ := Start.exists_right hinv hp
      obtain ⟨q', hpath', hq⟩ := hmatch.path hinv hpath
      exact ⟨p', q', hp', hpath', (hq.at_iff l).mpr hat⟩
    · rintro ⟨p', q', hp', hpath', hat'⟩
      obtain ⟨p, hp, hmatch⟩ := Start.exists_left hinv hstart hp'
      obtain ⟨q, hpath, hfollows⟩ := (Follows.same hmatch).path hinv hnodup hpath'
      obtain ⟨q, rfl, hq⟩ := hfollows.at_label hfresh hat'
      exact ⟨p, q, hp, hpath, (hq.at_iff l).mp hat'⟩
  · constructor
    · rintro ⟨p, ⟨q, s'⟩, tr₁, tr₂, hp, hpath, hends, rfl⟩
      obtain ⟨p', hp', hmatch⟩ := Start.exists_right hinv hp
      obtain ⟨q', hpath', hq⟩ := hmatch.path hinv hpath
      exact ⟨p', (q', s'), tr₁, tr₂, hp', hpath', hq.ends hinv hends, rfl⟩
    · rintro ⟨p', q', tr₁, tr₂, hp', hpath', hends, rfl⟩
      obtain ⟨p, hp, hmatch⟩ := Start.exists_left hinv hstart hp'
      obtain ⟨q, hpath, hfollows⟩ := (Follows.same hmatch).path hinv hnodup hpath'
      exact ⟨p, q, tr₁, tr₂, hp, hpath, hfollows.ends hinv hends, rfl⟩

end simulation

end LabelledCode
