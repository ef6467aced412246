import Mathlib.Data.List.Pairwise
import Mathlib.Data.List.Nodup
import Mathlib.Logic.Function.Basic

/-!
# Copies, one after the other and all at once

A list of assignments, each from a variable or a constant to a variable.  Executed in
order they have the effect of the simultaneous assignment exactly when no assignment
reads a variable that an earlier one has changed.
-/

namespace ParallelCopy

variable {ι α : Type} [DecidableEq ι]

/-- An assignment from a variable or of a constant. -/
structure Copy (ι α : Type) where
  dest : ι
  source : ι ⊕ α

def Copy.value (σ : ι → α) (a : Copy ι α) : α := a.source.elim σ id

/-- The assignments in order. -/
def sequential : List (Copy ι α) → (ι → α) → ι → α
  | [], σ => σ
  | a :: as, σ => sequential as (Function.update σ a.dest (a.value σ))

/-- `τ` is the result of assigning all at once in `σ`. -/
structure IsParallel (as : List (Copy ι α)) (σ τ : ι → α) : Prop where
  assigned : ∀ a ∈ as, τ a.dest = a.value σ
  unchanged : ∀ i, (∀ a ∈ as, i ≠ a.dest) → τ i = σ i

/-- No copy reads a variable that an earlier one changes. -/
def Ordered (as : List (Copy ι α)) (σ : ι → α) : Prop :=
  as.Pairwise fun a b => b.source = .inl a.dest → a.value σ = σ a.dest

theorem sequential_of_forall_ne {as : List (Copy ι α)} {i : ι} (h : ∀ a ∈ as, i ≠ a.dest)
    (σ : ι → α) : sequential as σ i = σ i := by
  induction as generalizing σ with
  | nil => rfl
  | cons a as ih =>
      rw [sequential, ih fun b hb => h b (List.mem_cons_of_mem a hb)]
      exact Function.update_of_ne (h a List.mem_cons_self) _ _

/-- Only the variables that are read matter. -/
theorem sequential_congr {s : Set ι} {as : List (Copy ι α)}
    (hs : ∀ a ∈ as, ∀ i, a.source = .inl i → i ∈ s) {σ ρ : ι → α} (h : ∀ i ∈ s, σ i = ρ i) :
    ∀ i ∈ s, sequential as σ i = sequential as ρ i := by
  induction as generalizing σ ρ with
  | nil => exact h
  | cons a as ih =>
      have hvalue : a.value σ = a.value ρ := by
        unfold Copy.value
        cases hsource : a.source with
        | inl i => exact h i (hs a List.mem_cons_self i hsource)
        | inr x => rfl
      refine ih (fun b hb => hs b (List.mem_cons_of_mem a hb)) fun i hi => ?_
      rw [hvalue]
      by_cases hdest : i = a.dest
      · rw [hdest, Function.update_self, Function.update_self]
      · rw [Function.update_of_ne hdest, Function.update_of_ne hdest, h i hi]

section distinct

variable {a : Copy ι α} {as : List (Copy ι α)} {σ : ι → α}

/-- A copy that is not overwritten keeps its value. -/
theorem sequential_cons_dest (h : ∀ b ∈ as, a.dest ≠ b.dest) :
    sequential (a :: as) σ a.dest = a.value σ := by
  rw [sequential, sequential_of_forall_ne h, Function.update_self]

/-- A copy from a variable that an earlier copy has set receives the new value. -/
theorem sequential_of_source_eq {b : Copy ι α} (hdest : ((a :: as).map Copy.dest).Nodup)
    (hb : b ∈ as) (hsource : b.source = .inl a.dest) :
    sequential (a :: as) σ b.dest = sequential (a :: as) σ a.dest := by
  have hne : ∀ b ∈ as, a.dest ≠ b.dest := by
    intro b hb heq
    exact (List.nodup_cons.mp hdest).1 (heq ▸ List.mem_map_of_mem hb)
  rw [sequential_cons_dest hne, sequential]
  -- the copies before `b` leave the destination of `a` alone
  suffices hgen : ∀ (as : List (Copy ι α)) (ρ : ι → α), (as.map Copy.dest).Nodup →
      (∀ c ∈ as, a.dest ≠ c.dest) → b ∈ as → sequential as ρ b.dest = ρ a.dest by
    rw [hgen as _ (List.nodup_cons.mp hdest).2 hne hb, Function.update_self]
  intro as ρ hnodup hne hb
  induction as generalizing ρ with
  | nil => cases hb
  | cons c cs ih =>
      obtain ⟨hc, hcs⟩ := List.nodup_cons.mp hnodup
      rcases List.mem_cons.mp hb with rfl | hb
      · rw [sequential_cons_dest fun d hd heq => hc (heq ▸ List.mem_map_of_mem hd), Copy.value,
          hsource]
        rfl
      · rw [sequential, ih _ hcs (fun d hd => hne d (List.mem_cons_of_mem c hd)) hb]
        exact Function.update_of_ne (hne c List.mem_cons_self) _ _

end distinct

theorem Copy.value_update {b : Copy ι α} {σ : ι → α} {i : ι} {x : α}
    (h : b.source = .inl i → x = σ i) : b.value (Function.update σ i x) = b.value σ := by
  unfold Copy.value
  cases hsource : b.source with
  | inl j =>
      by_cases hj : j = i
      · subst hj
        simpa using h hsource
      · exact Function.update_of_ne hj _ _
  | inr y => rfl

/-- In an ordered list every copy assigns the value of its source before the first copy. -/
theorem sequential_dest_of_ordered {as : List (Copy ι α)} {σ : ι → α} (h : Ordered as σ)
    (hdest : (as.map Copy.dest).Nodup) : ∀ a ∈ as, sequential as σ a.dest = a.value σ := by
  suffices hgen : ∀ ρ : ι → α, (∀ a ∈ as, a.value ρ = a.value σ) →
      ∀ a ∈ as, sequential as ρ a.dest = a.value σ from hgen σ fun _ _ => rfl
  induction as with
  | nil =>
      intro ρ _ a ha
      cases ha
  | cons c cs ih =>
      obtain ⟨hc, hcs⟩ := List.pairwise_cons.mp h
      obtain ⟨hnot, hnodup⟩ := List.nodup_cons.mp hdest
      intro ρ hρ a ha
      have hcρ := hρ c List.mem_cons_self
      rcases List.mem_cons.mp ha with rfl | ha
      · rw [sequential_cons_dest fun d hd heq => hnot (heq ▸ List.mem_map_of_mem hd), hcρ]
      · refine ih hcs hnodup _ (fun b hb => ?_) a ha
        rw [← hρ b (List.mem_cons_of_mem c hb)]
        apply Copy.value_update
        intro hsource
        have hb' := hρ b (List.mem_cons_of_mem c hb)
        simp only [Copy.value, hsource, Sum.elim_inl] at hb'
        rw [hcρ, hc b hb hsource, hb']

/-- The copies in order are the copies all at once exactly when they are ordered. -/
theorem isParallel_sequential_iff {as : List (Copy ι α)} {σ : ι → α}
    (hdest : (as.map Copy.dest).Nodup) :
    IsParallel as σ (sequential as σ) ↔ Ordered as σ := by
  constructor
  · intro h
    suffices hgen : ∀ (bs : List (Copy ι α)) (ρ : ι → α), bs <:+ as →
        sequential bs ρ = sequential as σ →
        Ordered bs σ from hgen as σ (List.suffix_refl as) rfl
    intro bs ρ hsuffix hρ
    induction bs generalizing ρ with
    | nil => exact List.Pairwise.nil
    | cons a cs ih =>
        have hmem : ∀ b ∈ a :: cs, b ∈ as := fun b hb => hsuffix.subset hb
        have hnodup : ((a :: cs).map Copy.dest).Nodup := hdest.sublist (hsuffix.sublist.map _)
        refine List.pairwise_cons.mpr ⟨fun b hb hsource => ?_, ?_⟩
        · have hread := sequential_of_source_eq (σ := ρ) hnodup hb hsource
          rw [hρ, h.assigned b (hmem b (List.mem_cons_of_mem a hb)),
            h.assigned a (hmem a List.mem_cons_self)] at hread
          rw [← hread, Copy.value, hsource]
          rfl
        · exact ih _ ((List.suffix_cons a cs).trans hsuffix) hρ
  · intro h
    exact ⟨sequential_dest_of_ordered h hdest, fun i hi => sequential_of_forall_ne hi σ⟩

end ParallelCopy
