import Mathlib.Data.List.Induction
import Mathlib.Data.String.Basic
import Llxvm.Jvm.Machine
import Llxvm.Lib.Separator

/-!
# The texts of labels

Blocks are numbered when their labels are asked for.  Labels with different numbers, and labels of
different kinds, have different texts.
-/

namespace Llxvm.Backend

open Llxvm.Jvm

/-! ## The numbers of blocks -/

/-- The map `blockIDs`. -/
abbrev BlockIDs := List (ℕ × ℕ)

/-- The number of a block, and the map with it. -/
def blockID (ids : BlockIDs) (block : ℕ) : ℕ × BlockIDs :=
  match ids.lookup block with
  | some n => (n, ids)
  | none => (ids.length + 1, (block, ids.length + 1) :: ids)

/-- The map after the labels of some blocks have been asked for. -/
def blockIDs (blocks : List ℕ) : BlockIDs := blocks.foldl (fun ids b => (blockID ids b).2) []

/-- Different blocks have different numbers, and no number is above the size of the map. -/
structure BlockIDs.Injective (ids : BlockIDs) : Prop where
  le : ∀ b n, ids.lookup b = some n → n ≤ ids.length
  inj : ∀ a b n, ids.lookup a = some n → ids.lookup b = some n → a = b

theorem BlockIDs.Injective.blockID {ids : BlockIDs} (h : ids.Injective) (block : ℕ) :
    (blockID ids block).2.Injective ∧
      ∀ b n, ids.lookup b = some n → (blockID ids block).2.lookup b = some n := by
  unfold Backend.blockID
  cases hlookup : ids.lookup block with
  | some n => exact ⟨h, fun _ _ hb => hb⟩
  | none =>
      have hcons : ∀ b n, ((block, ids.length + 1) :: ids).lookup b = some n →
          b = block ∧ n = ids.length + 1 ∨ ids.lookup b = some n := by
        intro b n hb
        rw [List.lookup_cons] at hb
        by_cases heq : b = block
        · rw [beq_iff_eq.mpr heq] at hb
          exact .inl ⟨heq, (Option.some.inj hb).symm⟩
        · rw [beq_eq_false_iff_ne.mpr heq] at hb
          exact .inr hb
      refine ⟨⟨fun b n hb => ?_, fun a b n ha hb => ?_⟩, fun b n hb => ?_⟩
      · rcases hcons b n hb with ⟨-, rfl⟩ | hb
        · rfl
        · exact (h.le b n hb).trans (Nat.le_succ _)
      · rcases hcons a n ha with ⟨ha, hn⟩ | ha
        · rcases hcons b n hb with ⟨hb, -⟩ | hb
          · rw [ha, hb]
          · exact absurd (h.le b n hb) (by omega)
        · rcases hcons b n hb with ⟨-, hn⟩ | hb
          · exact absurd (h.le a n ha) (by omega)
          · exact h.inj a b n ha hb
      · have hne : b ≠ block := by
          rintro rfl
          rw [hlookup] at hb
          cases hb
        rw [List.lookup_cons, beq_eq_false_iff_ne.mpr hne]
        exact hb

theorem blockIDs_concat (blocks : List ℕ) (block : ℕ) :
    blockIDs (blocks ++ [block]) = (blockID (blockIDs blocks) block).2 := by
  simp [blockIDs]

theorem blockIDs_injective (blocks : List ℕ) : (blockIDs blocks).Injective := by
  induction blocks using List.reverseRecOn with
  | nil => exact ⟨by simp [blockIDs], by simp [blockIDs]⟩
  | append_singleton blocks block ih =>
      rw [blockIDs_concat]
      exact (ih.blockID block).1

/-- A block that has been asked for keeps its number. -/
theorem isSome_lookup_blockIDs {blocks : List ℕ} {b : ℕ} (hb : b ∈ blocks) :
    ((blockIDs blocks).lookup b).isSome := by
  induction blocks using List.reverseRecOn with
  | nil => cases hb
  | append_singleton blocks block ih =>
      rw [blockIDs_concat]
      rcases List.mem_append.mp hb with hb | hb
      · obtain ⟨n, hn⟩ := Option.isSome_iff_exists.mp (ih hb)
        exact Option.isSome_iff_exists.mpr
          ⟨n, ((blockIDs_injective blocks).blockID block).2 b n hn⟩
      · obtain rfl := List.mem_singleton.mp hb
        unfold blockID
        split
        · next h => rw [h]; rfl
        · simp

/-! ## Texts -/

/-- `getLabelName`, and the texts of the other labels. -/
def labelText (number : ℕ → ℕ) : Label → String
  | .block b => "label" ++ toString (number b)
  | .phi b uid => "label" ++ toString (number b) ++ "_phi" ++ toString uid
  | .select uid second => "select" ++ toString uid ++ (if second then "b" else "a")
  | .br id => "lbl_br_" ++ toString id
  | .setjmp var => "setjmp$" ++ toString var
  | .beginMethod => "begin_method"
  | .catchJump => "catch_jump"
  | .endMethod => "end_method"

theorem toDigits_injective : Function.Injective (Nat.toDigits 10) := fun m n h => by
  rw [← Nat.ofDigitChars_ten_toDigits (n := m), h, Nat.ofDigitChars_ten_toDigits]

/-- The block that a label belongs to. -/
def labelBlocks : Label → List ℕ
  | .block b => [b]
  | .phi b _ => [b]
  | _ => []

theorem labelText_inj {number : ℕ → ℕ} {l l' : Label}
    (hnumber : ∀ b ∈ labelBlocks l, ∀ b' ∈ labelBlocks l', number b = number b' → b = b')
    (h : labelText number l = labelText number l') : l = l' := by
  have hline : ∀ n, '_' ∉ Nat.toDigits 10 n := fun n => Nat.underscore_not_in_toDigits
  rw [← String.toList_inj] at h
  -- the first letters tell the kinds apart, but for the two labels of blocks
  cases l <;> cases l' <;>
    simp only [labelText, String.toList_append, Nat.toString_eq_ofList_toDigits,
      String.toList_ofList, String.reduceToList, List.cons_append, List.nil_append,
      List.cons.injEq, Char.reduceEq, and_false, false_and, true_and, reduceCtorEq] at h
  case block.block b b' =>
      exact congrArg _ (hnumber b List.mem_cons_self b' List.mem_cons_self (toDigits_injective h))
  case block.phi b b' uid =>
      refine (hline (number b) ?_).elim
      rw [h]
      simp
  case phi.block b uid b' =>
      refine (hline (number b') ?_).elim
      rw [← h]
      simp
  case phi.phi b uid b' uid' =>
      simp only [List.append_assoc, List.cons_append, List.nil_append] at h
      obtain ⟨hb, huid⟩ := Separator.first_inj (hline _) (hline _) h
      rw [hnumber b List.mem_cons_self b' List.mem_cons_self (toDigits_injective hb),
        toDigits_injective (List.append_cancel_left
          (show ['p', 'h', 'i'] ++ _ = ['p', 'h', 'i'] ++ _ from huid))]
  case select.select uid second uid' second' =>
      cases second <;> cases second'
      case false.false => rw [toDigits_injective (List.append_cancel_right h)]
      case true.true => rw [toDigits_injective (List.append_cancel_right h)]
      all_goals
        have hlast := congrArg List.getLast? h
        simp at hlast
  case br.br id id' => rw [toDigits_injective h]
  case setjmp.setjmp var var' => rw [toDigits_injective h]
  all_goals rfl

end Llxvm.Backend
