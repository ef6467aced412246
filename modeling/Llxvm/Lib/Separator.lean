import Mathlib.Data.List.Basic

/-!
# Lists with a separator

A list is cut at the first or at the last occurrence of a separator, and the two parts
determine each other.
-/

namespace Separator

variable {α : Type*} {a : α}

/-- The part before the first separator and the part after it. -/
theorem first_inj {xs ys : List α} {us vs : List α} (hx : a ∉ xs) (hy : a ∉ ys)
    (h : xs ++ a :: us = ys ++ a :: vs) : xs = ys ∧ us = vs := by
  induction xs generalizing ys with
  | nil =>
      cases ys with
      | nil => exact ⟨rfl, (List.cons.inj h).2⟩
      | cons y ys =>
          have hay := (List.cons.inj h).1
          exact (hy (hay ▸ List.mem_cons_self)).elim
  | cons x xs ih =>
      rw [List.mem_cons, not_or] at hx
      cases ys with
      | nil => exact (hx.1 (List.cons.inj h).1.symm).elim
      | cons y ys =>
          rw [List.mem_cons, not_or] at hy
          obtain ⟨rfl, htail⟩ := List.cons.inj h
          obtain ⟨rfl, huv⟩ := ih hx.2 hy.2 htail
          exact ⟨rfl, huv⟩

/-- The part before the last separator and the part after it. -/
theorem last_inj {xs ys : List α} {us vs : List α} (hu : a ∉ us) (hv : a ∉ vs)
    (h : xs ++ a :: us = ys ++ a :: vs) : xs = ys ∧ us = vs := by
  have hrev := congrArg List.reverse h
  simp only [List.reverse_append, List.reverse_cons, List.append_assoc, List.singleton_append]
    at hrev
  obtain ⟨huv, hxy⟩ := first_inj (by simpa using hu) (by simpa using hv) hrev
  exact ⟨List.reverse_injective hxy, List.reverse_injective huv⟩

end Separator
