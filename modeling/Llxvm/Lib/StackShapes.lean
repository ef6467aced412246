import Mathlib.Data.List.Basic
import Mathlib.Data.List.Nodup
import Mathlib.Logic.Relation

/-!
# Shapes of operand stacks

Texts for a stack machine: a line takes entries of certain kinds from the top of the stack and
leaves others, and control falls to the next line, jumps to a label, or goes to the handler of an
exception.  If the labels have stacks that fit the lines, then a position is always reached with the
same one.  A text either replaces what it should replace, or somewhere does not find its operands,
or leaves something else.
-/

namespace StackShapes

/-- What the lines of a text do to the stack, given by the kinds of its entries from the top on. -/
structure Effects (ι L κ : Type) where
  pops : ι → List κ
  pushes : ι → List κ
  falls : ι → Bool
  jumps : ι → List L
  label : ι → Option L
  /-- Between the first two labels, exceptions go to the third one. -/
  catching : ι → Option (L × L × L)
  /-- The stack at the beginning of a handler. -/
  caught : List κ
  neutral : ∀ l t, label l = some t → pops l = [] ∧ pushes l = [] ∧ falls l = true ∧ jumps l = []

variable {ι L κ : Type} (e : Effects ι L κ)

/-! ## Paths -/

def textLabels (ls : List ι) : List L := ls.filterMap e.label

@[simp] theorem textLabels_nil : textLabels e [] = [] := rfl

@[simp] theorem textLabels_append (ls js : List ι) :
    textLabels e (ls ++ js) = textLabels e ls ++ textLabels e js := List.filterMap_append

/-- Exceptions of the first line of `rest` go to the label `handler`. -/
def Covers (all rest : List ι) (handler : L) : Prop :=
  ∃ c ∈ all, ∃ start stop, e.catching c = some (start, stop, handler) ∧
    ∃ pre, all = pre ++ rest ∧ start ∈ textLabels e pre ∧ stop ∈ textLabels e rest.tail

/-- A position is given by the lines that follow. -/
inductive Step (all : List ι) : List ι × List κ → List ι × List κ → Prop
  | fall {l : ι} {rest : List ι} {k s : List κ} (hk : k = e.pops l ++ s)
      (hfalls : e.falls l = true) : Step all (l :: rest, k) (rest, e.pushes l ++ s)
  | jump {l l' : ι} {rest rest' : List ι} {k s : List κ} {t : L} (hk : k = e.pops l ++ s)
      (ht : t ∈ e.jumps l) (hlabel : e.label l' = some t) (hsuffix : l' :: rest' <:+ all) :
      Step all (l :: rest, k) (l' :: rest', s)
  | throw {l l' : ι} {rest rest' : List ι} {k : List κ} {handler : L}
      (hcovers : Covers e all (l :: rest) handler) (hlabel : e.label l' = some handler)
      (hsuffix : l' :: rest' <:+ all) : Step all (l :: rest, k) (l' :: rest', e.caught)

def Leads (all : List ι) : List ι × List κ → List ι × List κ → Prop :=
  Relation.ReflTransGen (Step e all)

/-- Whatever path is taken from the start with an empty stack, every line finds its operands, and
the text is left with an empty stack. -/
structure Balanced (ls : List ι) : Prop where
  fits : ∀ l rest s, Leads e ls (ls, []) (l :: rest, s) → e.pops l <+: s
  ends : ∀ s, Leads e ls (ls, []) ([], s) → s = []
  leaves : ∀ l rest s, Leads e ls (ls, []) (l :: rest, s) →
    ∀ t ∈ e.jumps l, t ∉ textLabels e ls → s = e.pops l

/-! ## Stacks of labels -/

/-- What is below the operands of a line. -/
def Effects.below (l : ι) (s : List κ) : List κ := s.drop (e.pops l).length

@[simp] theorem below_append (l : ι) (s : List κ) : e.below l (e.pops l ++ s) = s :=
  List.drop_left

variable {e}

theorem pops_append_below {l : ι} {s : List κ} (h : e.pops l <+: s) :
    e.pops l ++ e.below l s = s := by
  obtain ⟨s, rfl⟩ := h
  rw [below_append]

section typing

variable (e) (Γ : L → List κ)

/-- The stack after a line, if the next line can be reached by falling to it. -/
def after (o : Option (List κ)) (l : ι) : Option (List κ) :=
  match e.label l with
  | some t => some (Γ t)
  | none => if e.falls l then o.map fun s => e.pushes l ++ e.below l s else none

structure Fits (l : ι) (s : List κ) : Prop where
  pops : e.pops l <+: s
  label : ∀ t, e.label l = some t → Γ t = s
  jumps : ∀ t ∈ e.jumps l, Γ t = e.below l s

def Typed : Option (List κ) → List ι → Prop
  | _, [] => True
  | o, l :: ls => (∀ s, o = some s → Fits e Γ l s) ∧ Typed (after e Γ o l) ls

def ending (o : Option (List κ)) (ls : List ι) : Option (List κ) := ls.foldl (after e Γ) o

/-- The stack at a position, given the one that falling to it gives. -/
def entry (o : Option (List κ)) : List ι → Option (List κ)
  | [] => o
  | l :: _ => (e.label l).elim o fun t => some (Γ t)

end typing

variable {Γ : L → List κ} {o o' : Option (List κ)} {l : ι} {ls js rest all : List ι}
  {s s' a a' b c i j k : List κ} {p q : Prop}

@[simp] theorem ending_append :
    ending e Γ o (ls ++ js) = ending e Γ (ending e Γ o ls) js := List.foldl_append

@[simp] theorem typed_append :
    Typed e Γ o (ls ++ js) ↔ Typed e Γ o ls ∧ Typed e Γ (ending e Γ o ls) js := by
  induction ls generalizing o with
  | nil => simp [Typed, ending]
  | cons l ls ih => simp only [List.cons_append, Typed, ih, ending, List.foldl_cons, and_assoc]

/-- A line that cannot be reached fits any stack. -/
theorem Typed.mono (ht : Typed e Γ o' ls) (hsub : ∀ s, o = some s → o' = some s) :
    Typed e Γ o ls ∧ ∀ s, ending e Γ o ls = some s → ending e Γ o' ls = some s := by
  induction ls generalizing o o' with
  | nil => exact ⟨trivial, hsub⟩
  | cons l ls ih =>
      have hafter : ∀ s, after e Γ o l = some s → after e Γ o' l = some s := by
        intro s hs
        unfold after at hs ⊢
        cases hl : e.label l with
        | some t => rwa [hl] at hs
        | none =>
            rw [hl] at hs
            simp only at hs ⊢
            split_ifs at hs ⊢
            obtain ⟨k, hk, rfl⟩ := Option.map_eq_some_iff.mp hs
            rw [hsub k hk]
            rfl
      obtain ⟨htail, hend⟩ := ih ht.2 hafter
      exact ⟨⟨fun s hs => ht.1 s (hsub s hs), htail⟩, hend⟩

theorem fits_of_entry (ht : Typed e Γ o (l :: rest)) (hentry : entry e Γ o (l :: rest) = some s) :
    Fits e Γ l s := by
  rw [entry] at hentry
  cases hl : e.label l with
  | none =>
      rw [hl] at hentry
      exact ht.1 s hentry
  | some t =>
      rw [hl] at hentry
      obtain ⟨hpops, -, -, hjumps⟩ := e.neutral l t hl
      refine ⟨hpops ▸ List.nil_prefix, fun t' ht' => ?_, by simp [hjumps]⟩
      cases hl.symm.trans ht'
      exact Option.some.inj hentry

theorem entry_of_typed (ht : Typed e Γ (some s) rest) : entry e Γ (some s) rest = some s := by
  cases rest with
  | nil => rfl
  | cons l rest =>
      rw [entry]
      cases hl : e.label l with
      | none => rfl
      | some t => exact congrArg some ((ht.1 s rfl).label t hl)

/-- Falling from a line gives the stack of the next one. -/
theorem after_of_entry (hentry : entry e Γ o (l :: rest) = some (e.pops l ++ s))
    (hfalls : e.falls l = true) : after e Γ o l = some (e.pushes l ++ s) := by
  rw [entry] at hentry
  unfold after
  cases hl : e.label l with
  | none =>
      rw [hl] at hentry
      obtain rfl : o = some (e.pops l ++ s) := hentry
      simp [hfalls]
  | some t =>
      rw [hl] at hentry
      obtain ⟨hpops, hpushes, -, -⟩ := e.neutral l t hl
      simpa [hpops, hpushes] using hentry

/-- Where a path is, the stack is the one that the labels give. -/
theorem Typed.leads (ht : Typed e Γ (some a) all)
    (hcatch : ∀ c ∈ all, ∀ t, e.catching c = some t → Γ t.2.2 = e.caught)
    (hpath : Leads e all (all, a) (rest, s)) :
    ∃ pre, all = pre ++ rest ∧ entry e Γ (ending e Γ (some a) pre) rest = some s := by
  have hlabelled : ∀ {l' rest' t}, e.label l' = some t → l' :: rest' <:+ all →
      ∃ pre, all = pre ++ l' :: rest' ∧
        entry e Γ (ending e Γ (some a) pre) (l' :: rest') = some (Γ t) := by
    rintro l' rest' t hl ⟨pre, rfl⟩
    exact ⟨pre, rfl, by simp [entry, hl]⟩
  suffices ∀ p, Leads e all (all, a) p →
      ∃ pre, all = pre ++ p.1 ∧ entry e Γ (ending e Γ (some a) pre) p.1 = some p.2 from
    this _ hpath
  intro p hp
  induction hp with
  | refl => exact ⟨[], rfl, entry_of_typed ht⟩
  | tail _ hstep ih =>
      obtain ⟨pre, hall, hentry⟩ := ih
      cases hstep with
      | @fall l rest k s hk hfalls =>
          cases hk
          have hending : ending e Γ (some a) (pre ++ [l]) = some (e.pushes l ++ s) := by
            rw [ending_append]
            exact after_of_entry hentry hfalls
          have hsplit : all = (pre ++ [l]) ++ rest := by simp [hall]
          rw [hsplit, typed_append, hending] at ht
          exact ⟨pre ++ [l], hsplit, hending ▸ entry_of_typed ht.2⟩
      | @jump l l' rest rest' k s t hk hjump hlabel hsuffix =>
          cases hk
          have htyped := ht
          rw [hall, typed_append] at htyped
          have htarget := (fits_of_entry htyped.2 hentry).jumps t hjump
          rw [below_append] at htarget
          rw [← htarget]
          exact hlabelled hlabel hsuffix
      | throw hcovers hlabel hsuffix =>
          obtain ⟨c, hc, start, stop, hcatching, -⟩ := hcovers
          have hcaught := hcatch c hc _ hcatching
          obtain ⟨pre', hall', hentry'⟩ := hlabelled hlabel hsuffix
          exact ⟨pre', hall', hentry'.trans (congrArg some hcaught)⟩

theorem Typed.fits (ht : Typed e Γ (some a) all)
    (hcatch : ∀ c ∈ all, ∀ t, e.catching c = some t → Γ t.2.2 = e.caught)
    (hpath : Leads e all (all, a) (l :: rest, s)) : Fits e Γ l s := by
  obtain ⟨pre, rfl, hentry⟩ := ht.leads hcatch hpath
  exact fits_of_entry (typed_append.mp ht).2 hentry

theorem Typed.unique (ht : Typed e Γ (some a) all)
    (hcatch : ∀ c ∈ all, ∀ t, e.catching c = some t → Γ t.2.2 = e.caught)
    (hpath : Leads e all (all, a) (rest, s)) (hpath' : Leads e all (all, a) (rest, s')) :
    s = s' := by
  obtain ⟨pre, hall, hentry⟩ := ht.leads hcatch hpath
  obtain ⟨pre', hall', hentry'⟩ := ht.leads hcatch hpath'
  obtain rfl := List.append_cancel_right (hall.symm.trans hall')
  exact Option.some.inj (hentry.symm.trans hentry')

/-! ## Texts in sequence -/

section flows

variable (e) (fixed : L → Option (List κ))

/-- The stacks of some labels are known beforehand. -/
def Agrees (Γ : L → List κ) : Prop := ∀ t s, fixed t = some s → Γ t = s

/-- The labels of the text can have stacks that fit the lines from the stack `a` on, so that the
text falls to what follows with the stack `b`, if at all. -/
def Flows (ls : List ι) (a b : List κ) : Prop :=
  (textLabels e ls).Nodup → ∃ γ : L → List κ, ∀ Γ, Agrees fixed Γ →
    (∀ t ∈ textLabels e ls, fixed t = none → Γ t = γ t) →
      Typed e Γ (some a) ls ∧ ∀ s, ending e Γ (some a) ls = some s → s = b

/-- There is a path through the text. -/
def Passes (ls : List ι) (a b : List κ) : Prop :=
  ∀ all rest, ls ++ rest <:+ all → Leads e all (ls ++ rest, a) (rest, b)

/-- There is a path to a line that does not find its operands. -/
def Breaks (ls : List ι) (a : List κ) : Prop :=
  ∀ all rest, ls ++ rest <:+ all → ∃ l rest' s, Leads e all (ls ++ rest, a) (l :: rest', s) ∧
    ¬ e.pops l <+: s

/-- There is a path to a label, wherever it is. -/
def JumpsTo (ls : List ι) (a : List κ) (t : L) (b : List κ) : Prop :=
  ∀ all rest l rest', ls ++ rest <:+ all → l :: rest' <:+ all → e.label l = some t →
    Leads e all (ls ++ rest, a) (l :: rest', b)

structure Straight (ls : List ι) (a b : List κ) : Prop where
  flows : Flows e fixed ls a b
  passes : Passes e ls a b

/-- If `p`, the text makes `b` of `a`.  Otherwise, and of another stack with as many entries, it
makes another one than `b`, if a path goes through it at all. -/
structure Goes (p : Prop) (ls : List ι) (a b : List κ) : Prop where
  straight : p → Straight e fixed ls a b
  wrong : ∀ a', a'.length = a.length → ¬ (p ∧ a' = a) →
    Breaks e ls a' ∨ ∃ b', b'.length = b.length ∧ b' ≠ b ∧ Passes e ls a' b'

/-- The text replaces the entries `i` by `o` whatever is below them, if `p`. -/
def Yields (p : Prop) (ls : List ι) (i o : List κ) : Prop :=
  ∀ r, Goes e fixed p ls (i ++ r) (o ++ r)

/-- The text replaces the entries `i` by `o`, and breaks on others. -/
structure Strict (ls : List ι) (i o : List κ) : Prop where
  yields : Yields e fixed True ls i o
  breaks : ∀ i' r, i'.length = i.length → i' ≠ i → Breaks e ls (i' ++ r)

/-- The text does not fall to what follows; it finds its operands in the stack `a`, if `p`, and
otherwise does not. -/
structure Quits (p : Prop) (ls : List ι) (a : List κ) : Prop where
  flows : p → ∀ b, Flows e fixed ls a b
  breaks : ∀ a', a'.length = a.length → ¬ (p ∧ a' = a) → Breaks e ls a'

end flows

variable {fixed : L → Option (List κ)}

theorem Flows.nil : Flows e fixed [] a a := fun _ =>
  ⟨fun _ => [], fun _ _ _ => ⟨trivial, fun _ hs => (Option.some.inj hs).symm⟩⟩

theorem Flows.append (h₁ : Flows e fixed ls a b) (h₂ : Flows e fixed js b c) :
    Flows e fixed (ls ++ js) a c := by
  classical
  intro hnodup
  rw [textLabels_append] at hnodup
  obtain ⟨γ₁, hγ₁⟩ := h₁ hnodup.of_append_left
  obtain ⟨γ₂, hγ₂⟩ := h₂ hnodup.of_append_right
  have hdisj := List.disjoint_of_nodup_append hnodup
  refine ⟨fun t => if t ∈ textLabels e ls then γ₁ t else γ₂ t, fun Γ hΓ hlabels => ?_⟩
  rw [textLabels_append] at hlabels
  obtain ⟨ht₁, hend₁⟩ := hγ₁ Γ hΓ fun t ht hfixed =>
    (hlabels t (List.mem_append_left _ ht) hfixed).trans (if_pos ht)
  obtain ⟨ht₂, hend₂⟩ := hγ₂ Γ hΓ fun t ht hfixed =>
    (hlabels t (List.mem_append_right _ ht) hfixed).trans (if_neg fun ht' => hdisj ht' ht)
  obtain ⟨ht, hend⟩ := ht₂.mono fun s hs => congrArg some (hend₁ s hs).symm
  rw [typed_append, ending_append]
  exact ⟨⟨ht₁, ht⟩, fun s hs => hend₂ s (hend s hs)⟩

theorem Flows.line (hlabel : e.label l = none) (hjumps : ∀ t ∈ e.jumps l, fixed t = some s)
    (hb : e.falls l = true → b = e.pushes l ++ s) : Flows e fixed [l] (e.pops l ++ s) b := by
  refine fun _ => ⟨fun _ => [], fun Γ hΓ _ => ⟨⟨?_, trivial⟩, ?_⟩⟩
  · rintro k hk
    obtain rfl : e.pops l ++ s = k := Option.some.inj hk
    refine ⟨List.prefix_append _ _, by simp [hlabel], fun t ht => ?_⟩
    rw [below_append]
    exact hΓ t _ (hjumps t ht)
  · intro k hk
    simp only [ending, List.foldl_cons, List.foldl_nil, after, hlabel] at hk
    split_ifs at hk with hfalls
    rw [hb hfalls, ← Option.some.inj hk]
    simp only [below_append]

theorem Flows.label {t : L} (hl : e.label l = some t) (ht : fixed t = some a) :
    Flows e fixed [l] a a := by
  obtain ⟨hpops, -, -, hjumps⟩ := e.neutral l t hl
  refine fun _ => ⟨fun _ => [], fun Γ hΓ _ => ⟨⟨?_, trivial⟩, ?_⟩⟩
  · rintro s hs
    obtain rfl : a = s := Option.some.inj hs
    refine ⟨hpops ▸ List.nil_prefix, fun t' ht' => ?_, by simp [hjumps]⟩
    cases hl.symm.trans ht'
    exact hΓ t _ ht
  · intro s hs
    simp only [ending, List.foldl_cons, List.foldl_nil, after, hl] at hs
    rw [← Option.some.inj hs, hΓ t _ ht]

/-- Stacks for all labels; those that are not in the text are reached with an empty one. -/
theorem Flows.exists_shapes (hflows : Flows e fixed ls a b) (hnodup : (textLabels e ls).Nodup) :
    ∃ Γ, Agrees fixed Γ ∧ Typed e Γ (some a) ls ∧
      ∀ s, ending e Γ (some a) ls = some s → s = b := by
  obtain ⟨γ, hγ⟩ := hflows hnodup
  have hagrees : Agrees fixed fun t => (fixed t).getD (γ t) := by
    intro t s ht
    simp [ht]
  exact ⟨_, hagrees, hγ _ hagrees fun t _ ht => by simp [ht]⟩

theorem Flows.balanced (hflows : Flows e fixed ls [] []) (hnodup : (textLabels e ls).Nodup)
    (hout : ∀ l ∈ ls, ∀ t ∈ e.jumps l, t ∉ textLabels e ls → fixed t = some [])
    (hcatch : ∀ l ∈ ls, e.catching l = none) : Balanced e ls := by
  obtain ⟨Γ, hΓ, ht, hend⟩ := hflows.exists_shapes hnodup
  have hnone : ∀ c ∈ ls, ∀ t, e.catching c = some t → Γ t.2.2 = e.caught := by
    intro c hc t htext
    rw [hcatch c hc] at htext
    cases htext
  refine ⟨fun l rest s hpath => (ht.fits hnone hpath).pops, fun s hpath => ?_,
    fun l rest s hpath t hjump htext => ?_⟩
  · obtain ⟨pre, hall, hentry⟩ := ht.leads hnone hpath
    rw [List.append_nil] at hall
    exact hend s (hall ▸ hentry)
  · obtain ⟨pre, hall, -⟩ := ht.leads hnone hpath
    have hfits := ht.fits hnone hpath
    have hzero := hfits.jumps t hjump
    rw [hΓ t [] (hout l (by simp [hall]) t hjump htext)] at hzero
    rw [← pops_append_below hfits.pops, ← hzero, List.append_nil]

/-- More stacks may be known beforehand, if they are not those of the text. -/
theorem Flows.weaken {fixed' : L → Option (List κ)} (hflows : Flows e fixed ls a b)
    (hsub : ∀ t s, fixed t = some s → fixed' t = some s)
    (hlabels : ∀ t ∈ textLabels e ls, fixed' t = fixed t) : Flows e fixed' ls a b := by
  intro hnodup
  obtain ⟨γ, hγ⟩ := hflows hnodup
  exact ⟨γ, fun Γ hΓ ht => hγ Γ (fun t s h => hΓ t s (hsub t s h)) fun t htext hfixed =>
    ht t htext ((hlabels t htext).trans hfixed)⟩

/-- The stacks of labels of the text need not be known beforehand. -/
theorem Flows.close {fixed' : L → Option (List κ)} (hflows : Flows e fixed' ls a b)
    (hsub : ∀ t s, fixed t = some s → fixed' t = some s)
    (hlabels : ∀ t s, fixed' t = some s → fixed t = some s ∨ fixed t = none ∧ t ∈ textLabels e ls) :
    Flows e fixed ls a b := by
  intro hnodup
  obtain ⟨γ, hγ⟩ := hflows hnodup
  refine ⟨fun t => (fixed' t).getD (γ t), fun Γ hΓ ht => hγ Γ (fun t s hs => ?_)
    fun t htext hnone => ?_⟩
  · rcases hlabels t s hs with hfixed | ⟨hfixed, htext⟩
    · exact hΓ t s hfixed
    · simpa [hs] using ht t htext hfixed
  · have hfixed : fixed t = none := by
      cases hfixed : fixed t with
      | none => rfl
      | some s =>
          rw [hsub t s hfixed] at hnone
          cases hnone
    simpa [hnone] using ht t htext hfixed

/-! ## Paths through texts -/

theorem Passes.nil : Passes e [] a a := fun _ _ _ => .refl

theorem Passes.append (h₁ : Passes e ls a b) (h₂ : Passes e js b c) :
    Passes e (ls ++ js) a c := by
  intro all rest hsuffix
  rw [List.append_assoc] at hsuffix ⊢
  exact (h₁ all _ hsuffix).trans (h₂ all rest ((List.suffix_append _ _).trans hsuffix))

theorem Passes.line (hfalls : e.falls l = true) : Passes e [l] (e.pops l ++ s) (e.pushes l ++ s) :=
  fun _ _ _ => .single (.fall rfl hfalls)

theorem Passes.label {t : L} (hl : e.label l = some t) : Passes e [l] a a := by
  obtain ⟨hpops, hpushes, hfalls, -⟩ := e.neutral l t hl
  have hline : Passes e [l] (e.pops l ++ a) (e.pushes l ++ a) := .line hfalls
  rwa [hpops, hpushes] at hline

theorem Breaks.line (h : ¬ e.pops l <+: a) : Breaks e [l] a :=
  fun _ rest _ => ⟨l, rest, a, .refl, h⟩

theorem Breaks.append (h : Breaks e ls a) (js : List ι) : Breaks e (ls ++ js) a := by
  intro all rest hsuffix
  rw [List.append_assoc] at hsuffix ⊢
  exact h all (js ++ rest) hsuffix

theorem Passes.breaks (h₁ : Passes e ls a b) (h₂ : Breaks e js b) : Breaks e (ls ++ js) a := by
  intro all rest hsuffix
  rw [List.append_assoc] at hsuffix ⊢
  obtain ⟨l, rest', s, hpath, hpops⟩ := h₂ all rest ((List.suffix_append _ _).trans hsuffix)
  exact ⟨l, rest', s, (h₁ all _ hsuffix).trans hpath, hpops⟩

theorem JumpsTo.line {t : L} (ht : t ∈ e.jumps l) : JumpsTo e [l] (e.pops l ++ s) t s :=
  fun _ _ _ _ _ hsuffix hlabel => .single (.jump rfl ht hlabel hsuffix)

theorem Passes.jumpsTo {t : L} (h₁ : Passes e ls a b) (h₂ : JumpsTo e js b t c) :
    JumpsTo e (ls ++ js) a t c := by
  intro all rest l rest' hsuffix hjump hlabel
  rw [List.append_assoc] at hsuffix ⊢
  exact (h₁ all _ hsuffix).trans
    (h₂ all rest l rest' ((List.suffix_append _ _).trans hsuffix) hjump hlabel)

/-- A jump over a part of the text. -/
theorem JumpsTo.passes {t : L} (h : JumpsTo e ls a t b) (js : List ι) (hlabel : e.label l = some t)
    (hrest : Passes e rest b c) : Passes e (ls ++ (js ++ l :: rest)) a c := by
  intro all more hsuffix
  have hat : l :: (rest ++ more) <:+ all := List.IsSuffix.trans ⟨ls ++ js, by simp⟩ hsuffix
  rw [List.append_assoc] at hsuffix ⊢
  exact (h all _ l (rest ++ more) hsuffix hat hlabel).trans
    (((Passes.label hlabel).append hrest) all more hat)

theorem JumpsTo.breaks {t : L} (h : JumpsTo e ls a t b) (js : List ι) (hlabel : e.label l = some t)
    (hrest : Breaks e rest b) : Breaks e (ls ++ (js ++ l :: rest)) a := by
  intro all more hsuffix
  have hat : l :: (rest ++ more) <:+ all := List.IsSuffix.trans ⟨ls ++ js, by simp⟩ hsuffix
  rw [List.append_assoc] at hsuffix ⊢
  obtain ⟨l', rest', s, hpath, hpops⟩ := ((Passes.label hlabel).breaks hrest) all more hat
  exact ⟨l', rest', s, (h all _ l (rest ++ more) hsuffix hat hlabel).trans hpath, hpops⟩

theorem Balanced.not_breaks (hb : Balanced e ls) : ¬ Breaks e ls [] := by
  intro h
  obtain ⟨l, rest, s, hpath, hpops⟩ := h ls [] (by simp)
  rw [List.append_nil] at hpath
  exact hpops (hb.fits l rest s hpath)

/-- A path through a balanced text ends with an empty stack. -/
theorem Balanced.ending_eq (hb : Balanced e ls) (hpath : Passes e ls [] a) : a = [] := by
  have hall := hpath ls [] (by simp)
  rw [List.append_nil] at hall
  exact hb.ends a hall

/-! ## Texts that go right or wrong -/

theorem Straight.nil : Straight e fixed [] a a := ⟨.nil, .nil⟩

theorem Straight.append (h₁ : Straight e fixed ls a b) (h₂ : Straight e fixed js b c) :
    Straight e fixed (ls ++ js) a c :=
  ⟨h₁.flows.append h₂.flows, h₁.passes.append h₂.passes⟩

theorem Goes.congr (h : Goes e fixed p ls a b) (hpq : q ↔ p) : Goes e fixed q ls a b :=
  ⟨fun hq => h.straight (hpq.mp hq), fun a' hlength hno => h.wrong a' hlength (by rwa [← hpq])⟩

theorem Goes.nil : Goes e fixed True [] a a :=
  ⟨fun _ => .nil, fun a' hlength hno => .inr ⟨a', hlength, fun h => hno ⟨trivial, h⟩, .nil⟩⟩

/-- However it goes, as many entries are left. -/
theorem Goes.passes (h : Goes e fixed p ls a b) (ha : a'.length = a.length) :
    Breaks e ls a' ∨ ∃ b', b'.length = b.length ∧ Passes e ls a' b' := by
  by_cases hp : p ∧ a' = a
  · obtain ⟨hp, rfl⟩ := hp
    exact .inr ⟨b, rfl, (h.straight hp).passes⟩
  · exact (h.wrong a' ha hp).imp_right fun ⟨b', hlength, _, hpasses⟩ => ⟨b', hlength, hpasses⟩

theorem Goes.append (h₁ : Goes e fixed p ls a b) (h₂ : Goes e fixed q js b c) :
    Goes e fixed (p ∧ q) (ls ++ js) a c := by
  have hsecond : ∀ a' b', b'.length = b.length → ¬ (q ∧ b' = b) → Passes e ls a' b' →
      Breaks e (ls ++ js) a' ∨ ∃ c', c'.length = c.length ∧ c' ≠ c ∧ Passes e (ls ++ js) a' c' := by
    intro a' b' hlength hno hpasses
    rcases h₂.wrong b' hlength hno with hbreaks | ⟨c', hlength', hne, hpasses'⟩
    · exact .inl (hpasses.breaks hbreaks)
    · exact .inr ⟨c', hlength', hne, hpasses.append hpasses'⟩
  refine ⟨fun hpq => (h₁.straight hpq.1).append (h₂.straight hpq.2), fun a' hlength hno => ?_⟩
  by_cases hp : p ∧ a' = a
  · obtain ⟨hp, rfl⟩ := hp
    exact hsecond a' b rfl (fun hq => hno ⟨⟨hp, hq.1⟩, rfl⟩) (h₁.straight hp).passes
  · rcases h₁.wrong a' hlength hp with hbreaks | ⟨b', hlength', hne, hpasses⟩
    · exact .inl (hbreaks.append js)
    · exact hsecond a' b' hlength' (fun hq => hne hq.2) hpasses

/-- A line that falls, and jumps only where its stack is known. -/
theorem Goes.line (hlabel : e.label l = none) (hfalls : e.falls l = true)
    (hjumps : ∀ t ∈ e.jumps l, fixed t = some s) :
    Goes e fixed True [l] (e.pops l ++ s) (e.pushes l ++ s) := by
  refine ⟨fun _ => ⟨.line hlabel hjumps fun _ => rfl, .line hfalls⟩, fun a' hlength hno => ?_⟩
  by_cases hpops : e.pops l <+: a'
  · obtain ⟨s', rfl⟩ := hpops
    refine .inr ⟨e.pushes l ++ s', by simpa using hlength, fun heq => hno ⟨trivial, ?_⟩,
      .line hfalls⟩
    rw [List.append_cancel_left heq]
  · exact .inl (.line hpops)

theorem Goes.label {t : L} (hl : e.label l = some t) (ht : fixed t = some a) :
    Goes e fixed True [l] a a :=
  ⟨fun _ => ⟨.label hl ht, .label hl⟩, fun a' hlength hno =>
    .inr ⟨a', hlength, fun h => hno ⟨trivial, h⟩, .label hl⟩⟩

theorem Yields.nil : Yields e fixed True [] i i := fun _ => .nil

theorem Yields.congr (h : Yields e fixed p ls i k) (hpq : q ↔ p) : Yields e fixed q ls i k :=
  fun r => (h r).congr hpq

theorem Yields.append (h₁ : Yields e fixed p ls i j) (h₂ : Yields e fixed q js j k) :
    Yields e fixed (p ∧ q) (ls ++ js) i k := fun r => (h₁ r).append (h₂ r)

theorem Yields.frame (h : Yields e fixed p ls i j) (n : List κ) :
    Yields e fixed p ls (i ++ n) (j ++ n) := by
  intro r
  rw [List.append_assoc, List.append_assoc]
  exact h (n ++ r)

theorem Yields.goes (h : Yields e fixed p ls i j) : Goes e fixed p ls i j := by
  have hgoes := h []
  rwa [List.append_nil, List.append_nil] at hgoes

theorem Yields.line (hlabel : e.label l = none) (hjumps : e.jumps l = [])
    (hfalls : e.falls l = true) : Yields e fixed True [l] (e.pops l) (e.pushes l) :=
  fun _ => .line hlabel hfalls (by simp [hjumps])

/-- A line pushes an entry of another kind than it should. -/
theorem Yields.other {x y : κ} (hpops : e.pops l = []) (hpushes : e.pushes l = [x])
    (hfalls : e.falls l = true) (hne : x ≠ y) : Yields e fixed False [l] [] [y] := by
  refine fun r => ⟨False.elim, fun a' hlength _ => .inr ⟨x :: a', ?_, ?_, ?_⟩⟩
  · simpa using hlength
  · simp [hne]
  · have hline : Passes e [l] (e.pops l ++ a') (e.pushes l ++ a') := .line hfalls
    rwa [hpops, hpushes] at hline

theorem not_prefix_of_ne {i' r : List κ} (hlength : i'.length = i.length) (hne : i' ≠ i) :
    ¬ i <+: i' ++ r := fun ⟨_, h⟩ => hne (List.append_inj_left h hlength.symm).symm

theorem Strict.line (hlabel : e.label l = none) (hjumps : e.jumps l = [])
    (hfalls : e.falls l = true) : Strict e fixed [l] (e.pops l) (e.pushes l) :=
  ⟨.line hlabel hjumps hfalls, fun _ _ hlength hne => .line (not_prefix_of_ne hlength hne)⟩

theorem Strict.append (h₁ : Strict e fixed ls i j) (h₂ : Yields e fixed True js j k) :
    Strict e fixed (ls ++ js) i k :=
  ⟨(h₁.yields.append h₂).congr (by simp),
    fun i' r hlength hne => (h₁.breaks i' r hlength hne).append js⟩

/-- A strict text behind another one does not leave an entry of another kind than its own. -/
theorem Yields.append_other {x y : κ} (h₁ : Yields e fixed p ls [] i)
    (h₂ : Strict e fixed js i [x]) (hne : x ≠ y) : Yields e fixed False (ls ++ js) [] [y] := by
  refine fun r => ⟨False.elim, fun a' hlength _ => ?_⟩
  have hsecond : ∀ r', r'.length = r.length → Passes e ls a' (i ++ r') →
      Breaks e (ls ++ js) a' ∨ ∃ b', b'.length = ([y] ++ r).length ∧ b' ≠ [y] ++ r ∧
        Passes e (ls ++ js) a' b' := by
    intro r' hr hpasses
    have hjs := ((h₂.yields r').straight trivial).passes
    exact .inr ⟨[x] ++ r', by simpa using hr, by simp [hne], hpasses.append hjs⟩
  rcases (h₁ r).passes hlength with hbreaks | ⟨b', hlength', hpasses⟩
  · exact .inl (hbreaks.append js)
  · have hsplit := List.take_append_drop i.length b'
    rw [List.length_append] at hlength'
    have htake : (b'.take i.length).length = i.length := by
      rw [List.length_take]
      omega
    rw [← hsplit] at hpasses
    by_cases hi : b'.take i.length = i
    · rw [hi] at hpasses
      exact hsecond _ (by rw [List.length_drop]; omega) hpasses
    · exact .inl (hpasses.breaks (h₂.breaks _ _ htake hi))

/-- A balanced text goes right. -/
theorem Goes.of_balanced (h : Goes e fixed p ls [] []) (hb : Balanced e ls) : p := by
  by_contra hp
  rcases h.wrong [] rfl fun hno => hp hno.1 with hbreaks | ⟨b, hlength, hne, -⟩
  · exact hb.not_breaks hbreaks
  · exact hne (List.eq_nil_of_length_eq_zero hlength)

theorem Quits.of_balanced (h : Quits e fixed p ls []) (hb : Balanced e ls) : p := by
  by_contra hp
  exact hb.not_breaks (h.breaks [] rfl fun hno => hp hno.1)

theorem Goes.quits (h₁ : Goes e fixed p ls a b) (h₂ : Quits e fixed q js b) :
    Quits e fixed (p ∧ q) (ls ++ js) a := by
  refine ⟨fun hpq c => (h₁.straight hpq.1).flows.append (h₂.flows hpq.2 c),
    fun a' hlength hno => ?_⟩
  by_cases hp : p ∧ a' = a
  · obtain ⟨hp, rfl⟩ := hp
    exact (h₁.straight hp).passes.breaks (h₂.breaks b rfl fun hq => hno ⟨⟨hp, hq.1⟩, rfl⟩)
  · rcases h₁.wrong a' hlength hp with hbreaks | ⟨b', hlength', hne, hpasses⟩
    · exact hbreaks.append js
    · exact hpasses.breaks (h₂.breaks b' hlength' fun hq => hne hq.2)

/-- A line that does not fall. -/
theorem Quits.line (hlabel : e.label l = none) (hfalls : e.falls l = false)
    (hjumps : ∀ t ∈ e.jumps l, fixed t = some []) : Quits e fixed True [l] (e.pops l) := by
  refine ⟨fun _ b => ?_, fun a' hlength hno => .line fun hpops => hno ⟨trivial, ?_⟩⟩
  · have hline : Flows e fixed [l] (e.pops l ++ []) b :=
      .line hlabel hjumps fun h => absurd h (by simp [hfalls])
    rwa [List.append_nil] at hline
  · exact (hpops.eq_of_length hlength.symm).symm

theorem Quits.congr (h : Quits e fixed p ls a) (hpq : q ↔ p) : Quits e fixed q ls a :=
  ⟨fun hq => h.flows (hpq.mp hq), fun a' hlength hno => h.breaks a' hlength (by rwa [← hpq])⟩

/-- A test goes to the second of two texts. -/
theorem Quits.branch {t : L} {test yes no : List ι}
    (htest : Goes e fixed True test a b) (hjump : JumpsTo e test a t b)
    (hlabel : e.label l = some t) (ht : fixed t = some b) (hyes : Quits e fixed p yes b)
    (hno : Quits e fixed q no b) :
    Quits e fixed (p ∧ q) (test ++ (yes ++ l :: no)) a := by
  refine ⟨fun hpq c => ?_, fun a' hlength hwrong => ?_⟩
  · have hsecond : Flows e fixed (l :: no) b c :=
      (Flows.label hlabel ht).append (hno.flows hpq.2 c)
    exact (htest.straight trivial).flows.append ((hyes.flows hpq.1 b).append hsecond)
  · by_cases ha : a' = a
    · subst ha
      by_cases hp : p
      · exact hjump.breaks yes hlabel (hno.breaks b rfl fun hq => hwrong ⟨⟨hp, hq.1⟩, rfl⟩)
      · exact (htest.straight trivial).passes.breaks
          ((hyes.breaks b rfl fun h => hp h.1).append _)
    · rcases htest.wrong a' hlength fun h => ha h.2 with hbreaks | ⟨b', hlength', hne, hpasses⟩
      · exact hbreaks.append _
      · exact hpasses.breaks ((hyes.breaks b' hlength' fun h => hne h.2).append _)

/-! ## Choices -/

/-- A test jumps over a text to another one, and at the end of the first one control jumps over the
second. -/
structure Choice (x : κ) (test goto la lb : ι) (A B : L) : Prop where
  test : e.label test = none ∧ e.pops test = [x] ∧ e.pushes test = [] ∧ e.falls test = true ∧
    e.jumps test = [A]
  goto : e.label goto = none ∧ e.pops goto = [] ∧ e.falls goto = false ∧ e.jumps goto = [B]
  first : e.label la = some A
  second : e.label lb = some B

section choice

variable {x : κ} {cond yes no : List ι} {test goto la lb : ι} {A B : L} {q' : Prop}
  (hchoice : Choice (e := e) x test goto la lb A B)

theorem Breaks.choice (h : Breaks e (cond ++ [test]) a) :
    Breaks e (cond ++ [test] ++ yes ++ [goto] ++ [la] ++ no ++ [lb]) a := by
  have hall := h.append (yes ++ [goto] ++ [la] ++ no ++ [lb])
  simpa using hall

include hchoice

theorem Choice.textLabels : textLabels e (cond ++ [test] ++ yes ++ [goto] ++ [la] ++ no ++ [lb]) =
    textLabels e cond ++ textLabels e yes ++ [A] ++ textLabels e no ++ [B] := by
  simp [StackShapes.textLabels, hchoice.test.1, hchoice.goto.1, hchoice.first, hchoice.second]

theorem Choice.flows (hcond : Flows e fixed cond a (x :: b)) (hyes : Flows e fixed yes b c)
    (hno : Flows e fixed no b c) (hA : fixed A = none) (hB : fixed B = none) :
    Flows e fixed (cond ++ [test] ++ yes ++ [goto] ++ [la] ++ no ++ [lb]) a c := by
  classical
  intro hnodup
  have hlabels : StackShapes.textLabels e (cond ++ [test] ++ yes ++ [goto] ++ [la] ++ no ++ [lb]) =
      StackShapes.textLabels e cond ++ StackShapes.textLabels e yes ++ [A] ++
        StackShapes.textLabels e no ++ [B] := hchoice.textLabels
  have hout : (∀ t ∈ StackShapes.textLabels e cond ++ StackShapes.textLabels e yes ++
      StackShapes.textLabels e no, t ≠ A ∧ t ≠ B) ∧ A ≠ B := by
    rw [hlabels] at hnodup
    simp only [List.nodup_append, List.mem_append, List.mem_singleton] at hnodup
    grind
  obtain ⟨hout, hne⟩ := hout
  let fixed' : L → Option (List κ) := fun t =>
    if t = A then some b else if t = B then some c else fixed t
  have hfixedA : fixed' A = some b := if_pos rfl
  have hfixedB : fixed' B = some c := (if_neg hne.symm).trans (if_pos rfl)
  have hsub : ∀ t s, fixed t = some s → fixed' t = some s := by
    intro t s ht
    have hA' : t ≠ A := by
      rintro rfl
      simp [hA] at ht
    have hB' : t ≠ B := by
      rintro rfl
      simp [hB] at ht
    simp [fixed', hA', hB', ht]
  have hweaken : ∀ {ls a b}, Flows e fixed ls a b →
      (∀ t ∈ StackShapes.textLabels e ls, t ≠ A ∧ t ≠ B) → Flows e fixed' ls a b :=
    fun hflows ht => hflows.weaken hsub fun t htext => by
      simp [fixed', (ht t htext).1, (ht t htext).2]
  have hcond' := hweaken hcond fun t ht => hout t (by simp [ht])
  have hyes' := hweaken hyes fun t ht => hout t (by simp [ht])
  have hno' := hweaken hno fun t ht => hout t (by simp [ht])
  obtain ⟨⟨htl, htp, htq, htf, htj⟩, ⟨hgl, hgp, hgf, hgj⟩, hla, hlb⟩ := hchoice
  have htest : Flows e fixed' [test] (e.pops test ++ b) b :=
    .line htl (by simp [htj, hfixedA]) (by simp [htq])
  have hgoto : Flows e fixed' [goto] (e.pops goto ++ c) b :=
    .line hgl (by simp [hgj, hfixedB]) (by simp [hgf])
  rw [htp] at htest
  rw [hgp] at hgoto
  have hall := ((((hcond'.append htest).append hyes').append hgoto).append
    (.label hla hfixedA)).append hno' |>.append (.label hlb hfixedB)
  refine hall.close hsub (fun t s ht => ?_) hnodup
  simp only [fixed'] at ht
  split_ifs at ht with hA' hB'
  · refine .inr ⟨hA' ▸ hA, ?_⟩
    rw [hlabels, hA']
    simp
  · refine .inr ⟨hB' ▸ hB, ?_⟩
    rw [hlabels, hB']
    simp
  · exact .inl ht

theorem Choice.passes_test (hcond : Passes e cond a (x :: b)) : Passes e (cond ++ [test]) a b := by
  obtain ⟨⟨-, hpops, hpushes, hfalls, -⟩, -, -, -⟩ := hchoice
  have htest : Passes e [test] (e.pops test ++ b) (e.pushes test ++ b) := .line hfalls
  rw [hpops, hpushes] at htest
  exact hcond.append htest

/-- Over the first text. -/
theorem Choice.passes_yes (hcond : Passes e cond a (x :: b)) (hyes : Passes e yes b c) :
    Passes e (cond ++ [test] ++ yes ++ [goto] ++ [la] ++ no ++ [lb]) a c := by
  have hfirst := (hchoice.passes_test hcond).append hyes
  obtain ⟨-, ⟨-, hpops, -, hjumps⟩, -, hlb⟩ := hchoice
  have hgoto : JumpsTo e [goto] (e.pops goto ++ c) B c := .line (by simp [hjumps])
  rw [hpops] at hgoto
  have hall := (hfirst.jumpsTo hgoto).passes ([la] ++ no) hlb .nil
  simpa using hall

theorem Choice.breaks_yes (hcond : Passes e cond a (x :: b)) (hyes : Breaks e yes b) :
    Breaks e (cond ++ [test] ++ yes ++ [goto] ++ [la] ++ no ++ [lb]) a := by
  have hall := ((hchoice.passes_test hcond).breaks hyes).append ([goto] ++ [la] ++ no ++ [lb])
  simpa using hall

theorem Choice.jumpsTo (hcond : Passes e cond a (x :: b)) : JumpsTo e (cond ++ [test]) a A b := by
  obtain ⟨⟨-, hpops, -, -, hjumps⟩, -, -, -⟩ := hchoice
  have htest : JumpsTo e [test] (e.pops test ++ b) A b := .line (by simp [hjumps])
  rw [hpops] at htest
  exact hcond.jumpsTo htest

/-- Over the second text. -/
theorem Choice.passes_no (hcond : Passes e cond a (x :: b)) (hno : Passes e no b c) :
    Passes e (cond ++ [test] ++ yes ++ [goto] ++ [la] ++ no ++ [lb]) a c := by
  have hall := (hchoice.jumpsTo hcond).passes (yes ++ [goto]) hchoice.first
    (hno.append (.label hchoice.second))
  simpa using hall

theorem Choice.breaks_no (hcond : Passes e cond a (x :: b)) (hno : Breaks e no b) :
    Breaks e (cond ++ [test] ++ yes ++ [goto] ++ [la] ++ no ++ [lb]) a := by
  have hall := (hchoice.jumpsTo hcond).breaks (yes ++ [goto]) hchoice.first (hno.append [lb])
  simpa using hall

theorem Choice.goes (hcond : Goes e fixed p cond a (x :: b)) (hyes : Goes e fixed q yes b c)
    (hno : Goes e fixed q' no b c) (hA : fixed A = none) (hB : fixed B = none) :
    Goes e fixed (p ∧ q ∧ q') (cond ++ [test] ++ yes ++ [goto] ++ [la] ++ no ++ [lb]) a c := by
  refine ⟨fun h => ⟨hchoice.flows (hcond.straight h.1).flows (hyes.straight h.2.1).flows
    (hno.straight h.2.2).flows hA hB, hchoice.passes_yes (hcond.straight h.1).passes
      (hyes.straight h.2.1).passes⟩, fun a' hlength hwrong => ?_⟩
  have hfirst : ∀ b', b'.length = b.length → ¬ (q ∧ b' = b) → Passes e cond a' (x :: b') →
      Breaks e (cond ++ [test] ++ yes ++ [goto] ++ [la] ++ no ++ [lb]) a' ∨
        ∃ c', c'.length = c.length ∧ c' ≠ c ∧
          Passes e (cond ++ [test] ++ yes ++ [goto] ++ [la] ++ no ++ [lb]) a' c' := by
    intro b' hlength' hq hpasses
    rcases hyes.wrong b' hlength' hq with hbreaks | ⟨c', hc, hne, hpasses'⟩
    · exact .inl (hchoice.breaks_yes hpasses hbreaks)
    · exact .inr ⟨c', hc, hne, hchoice.passes_yes hpasses hpasses'⟩
  by_cases hp : p ∧ a' = a
  · obtain ⟨hp, rfl⟩ := hp
    have hpasses := (hcond.straight hp).passes
    by_cases hq : q
    · -- only the second text goes wrong
      rcases hno.wrong b rfl fun h => hwrong ⟨⟨hp, hq, h.1⟩, rfl⟩ with hbreaks | ⟨c', hc, hne, h⟩
      · exact .inl (hchoice.breaks_no hpasses hbreaks)
      · exact .inr ⟨c', hc, hne, hchoice.passes_no hpasses h⟩
    · exact hfirst b rfl (fun h => hq h.1) hpasses
  · rcases hcond.wrong a' hlength hp with hbreaks | ⟨k, hk, hne, hpasses⟩
    · exact .inl (hbreaks.append [test]).choice
    · by_cases hx : [x] <+: k
      · obtain ⟨b', rfl⟩ := hx
        exact hfirst b' (by simpa using hk) (fun h => hne (congrArg (x :: ·) h.2)) hpasses
      · rw [← hchoice.test.2.1] at hx
        exact .inl (hpasses.breaks (.line hx)).choice

theorem Choice.yields (hcond : Yields e fixed p cond i (x :: j)) (hyes : Yields e fixed q yes j k)
    (hno : Yields e fixed q' no j k) (hA : fixed A = none) (hB : fixed B = none) :
    Yields e fixed (p ∧ q ∧ q') (cond ++ [test] ++ yes ++ [goto] ++ [la] ++ no ++ [lb]) i k :=
  fun r => hchoice.goes (hcond r) (hyes r) (hno r) hA hB

end choice

end StackShapes
