import Mathlib.Data.List.Forall2
import Llxvm.Lib.Align

/-!
# Placing pieces with a cursor

Pieces of data that are placed one behind the other, each at the next multiple of its alignment,
and blocks of a layout that say where they should be.
-/

namespace Placement

open Align

variable {α : Type}

/-- A block of a layout; the data that should be there, if it matters. -/
structure Block (α : Type) where
  offset : ℕ
  align : ℕ
  size : ℕ
  value : Option (List α)

/-- A piece is an alignment and data. -/
abbrev Piece (α : Type) := ℕ × List α

/-- The pieces at their positions. -/
def placed (s : ℕ) : List (Piece α) → List (ℕ × List α)
  | [] => []
  | p :: ps => (alignUp s p.1, p.2) :: placed (alignUp s p.1 + p.2.length) ps

/-- The end of the last piece. -/
def cursor (s : ℕ) : List (Piece α) → ℕ
  | [] => s
  | p :: ps => cursor (alignUp s p.1 + p.2.length) ps

/-- The position is in no piece. -/
def Free (placed : List (ℕ × List α)) (x : ℕ) : Prop :=
  ∀ p ∈ placed, x < p.1 ∨ p.1 + p.2.length ≤ x

/-- The blocks are aligned and one behind the other, between `e` and `f`. -/
def Between (e f : ℕ) : List (Block α) → Prop
  | [] => e ≤ f
  | b :: bs => e ≤ b.offset ∧ 0 < b.align ∧ b.align ∣ b.offset ∧ Between (b.offset + b.size) f bs

/-- Each block begins less than its alignment behind the end of the one before. -/
def NoGaps (e : ℕ) : List (Block α) → Prop
  | [] => True
  | b :: bs => b.offset < e + b.align ∧ NoGaps (b.offset + b.size) bs

instance decidableNoGaps : (e : ℕ) → (bs : List (Block α)) → Decidable (NoGaps e bs)
  | _, [] => isTrue trivial
  | e, b :: bs =>
      have := decidableNoGaps (b.offset + b.size) bs
      inferInstanceAs (Decidable (b.offset < e + b.align ∧ NoGaps (b.offset + b.size) bs))

/-- The piece is one for the block. -/
structure Matches (b : Block α) (p : Piece α) : Prop where
  align : p.1 = b.align
  size : p.2.length = b.size
  value : ∀ v ∈ b.value, p.2 = v

/-- A block without its data. -/
def Block.shape (b : Block α) : ℕ × ℕ × ℕ := (b.offset, b.align, b.size)

/-! ## Positions -/

theorem cursor_append (s : ℕ) (ps qs : List (Piece α)) :
    cursor s (ps ++ qs) = cursor (cursor s ps) qs := by
  induction ps generalizing s with
  | nil => rfl
  | cons p ps ih => exact ih _

theorem placed_append (s : ℕ) (ps qs : List (Piece α)) :
    placed s (ps ++ qs) = placed s ps ++ placed (cursor s ps) qs := by
  induction ps generalizing s with
  | nil => rfl
  | cons p ps ih =>
      rw [List.cons_append, placed, placed, ih]
      rfl

theorem le_cursor (s : ℕ) (ps : List (Piece α)) : s ≤ cursor s ps := by
  induction ps generalizing s with
  | nil => exact le_rfl
  | cons p ps ih =>
      have hup := le_alignUp s p.1
      exact (by omega : s ≤ alignUp s p.1 + p.2.length).trans (ih _)

/-- The pieces are between the start and the cursor. -/
theorem bounds_of_mem_placed {s : ℕ} {ps : List (Piece α)} {p : ℕ × List α}
    (h : p ∈ placed s ps) : s ≤ p.1 ∧ p.1 + p.2.length ≤ cursor s ps := by
  induction ps generalizing s with
  | nil => cases h
  | cons q ps ih =>
      have hup := le_alignUp s q.1
      rcases List.mem_cons.mp h with rfl | h
      · exact ⟨hup, le_cursor _ ps⟩
      · obtain ⟨hle, hend⟩ := ih h
        exact ⟨by omega, hend⟩

theorem Between.mono {e e' f f' : ℕ} {bs : List (Block α)} (h : Between e f bs) (he : e' ≤ e)
    (hf : f ≤ f') : Between e' f' bs := by
  induction bs generalizing e e' with
  | nil => exact he.trans (Nat.le_trans h hf)
  | cons b bs ih => exact ⟨he.trans h.1, h.2.1, h.2.2.1, ih h.2.2.2 le_rfl⟩

theorem Between.append {e f g : ℕ} {bs cs : List (Block α)} (h : Between e f bs)
    (h' : Between f g cs) : Between e g (bs ++ cs) := by
  induction bs generalizing e with
  | nil => exact h'.mono h le_rfl
  | cons b bs ih => exact ⟨h.1, h.2.1, h.2.2.1, ih h.2.2.2⟩

theorem NoGaps.congr {e : ℕ} {bs cs : List (Block α)} (h : NoGaps e bs)
    (hshape : bs.map Block.shape = cs.map Block.shape) : NoGaps e cs := by
  induction bs generalizing e cs with
  | nil =>
      cases cs with
      | nil => trivial
      | cons c cs => cases hshape
  | cons b bs ih =>
      cases cs with
      | nil => cases hshape
      | cons c cs =>
          simp only [List.map_cons, List.cons.injEq, Block.shape, Prod.mk.injEq] at hshape
          obtain ⟨⟨hoffset, halign, hsize⟩, hrest⟩ := hshape
          obtain ⟨hgap, hgaps⟩ := h
          rw [hoffset, halign] at hgap
          rw [hoffset, hsize] at hgaps
          exact ⟨hgap, ih hgaps hrest⟩

section layout

variable {bs : List (Block α)} {ps : List (Piece α)} {e f : ℕ}

end layout

end Placement
