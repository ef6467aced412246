import Mathlib.Data.List.Basic

/-!
# Lines of a text

A text consists of lines that are followed by a newline, and of what is behind the last newline.
-/

namespace TextLines

variable {α : Type*} {nl : α}

/-- The lines, each with a newline behind it. -/
def unlines (nl : α) (ls : List (List α)) : List α := ls.flatMap fun l => l ++ [nl]

@[simp] theorem unlines_nil : unlines nl [] = [] := rfl

@[simp] theorem unlines_cons (l : List α) (ls : List (List α)) :
    unlines nl (l :: ls) = l ++ nl :: unlines nl ls := by simp [unlines]

@[simp] theorem unlines_append (ls ls' : List (List α)) :
    unlines nl (ls ++ ls') = unlines nl ls ++ unlines nl ls' := by simp [unlines]

/-- The first piece ends in front of the first separator. -/
theorem head?_splitOnP (p : α → Bool) (s : List α) :
    (s.splitOnP p).head? = some (s.takeWhile fun a => !p a) := by
  induction s with
  | nil => rfl
  | cons a s ih =>
      rw [List.splitOnP_cons_eq_if_modifyHead]
      cases hp : p a with
      | true => simp [hp]
      | false => simp [hp, ih]

section split

variable [DecidableEq α]

/-- The lines that have a newline behind them. -/
def terminated (nl : α) (text : List α) : List (List α) := (text.splitOn nl).dropLast

/-- What is behind the last newline. -/
def remainder (nl : α) (text : List α) : List α :=
  (text.splitOn nl).getLast (List.splitOn_ne_nil nl text)

/-- All lines, with the last one if it is not empty. -/
def allLines (nl : α) (text : List α) : List (List α) :=
  terminated nl text ++ if remainder nl text = [] then [] else [remainder nl text]

theorem unlines_append_remainder (text : List α) :
    unlines nl (terminated nl text) ++ remainder nl text = text := by
  have hjoin (ls : List (List α)) (r : List α) :
      [nl].intercalate (ls ++ [r]) = unlines nl ls ++ r := by
    induction ls with
    | nil => simp
    | cons l ls ih =>
        rw [List.cons_append, List.intercalate_cons_of_ne_nil (by simp), ih]
        simp
  have hsplit := List.dropLast_append_getLast (List.splitOn_ne_nil nl text)
  have htext := @List.intercalate_splitOn _ text _ _ nl
  rw [← hsplit, hjoin] at htext
  exact htext

/-- A piece of a text has only elements of the text. -/
theorem mem_of_mem_splitOn {text l : List α} (hl : l ∈ text.splitOn nl) {a : α} (ha : a ∈ l) :
    a ∈ text := by
  induction text generalizing l with
  | nil => simp_all
  | cons x text ih =>
      rw [List.splitOn_cons_eq_if_modifyHead] at hl
      split_ifs at hl
      · rcases List.mem_cons.mp hl with rfl | hl
        · cases ha
        · exact List.mem_cons_of_mem x (ih hl ha)
      · obtain ⟨p, ps, hps⟩ := List.exists_cons_of_ne_nil (List.splitOn_ne_nil nl text)
        rw [hps] at hl ih
        rcases List.mem_cons.mp hl with rfl | hl
        · rcases List.mem_cons.mp ha with rfl | ha
          · exact List.mem_cons_self
          · exact List.mem_cons_of_mem x (ih List.mem_cons_self ha)
        · exact List.mem_cons_of_mem x (ih (List.mem_cons_of_mem p hl) ha)

theorem not_mem_of_mem_splitOn {text l : List α} (hl : l ∈ text.splitOn nl) : nl ∉ l := by
  induction text generalizing l with
  | nil => simp_all
  | cons x text ih =>
      rw [List.splitOn_cons_eq_if_modifyHead] at hl
      split_ifs at hl with hx
      · rcases List.mem_cons.mp hl with rfl | hl
        · exact List.not_mem_nil
        · exact ih hl
      · obtain ⟨p, ps, hps⟩ := List.exists_cons_of_ne_nil (List.splitOn_ne_nil nl text)
        rw [hps] at hl ih
        rcases List.mem_cons.mp hl with rfl | hl
        · rw [List.mem_cons, not_or]
          exact ⟨fun h => hx (by simp [h]), ih List.mem_cons_self⟩
        · exact ih (List.mem_cons_of_mem p hl)

theorem not_mem_of_mem_terminated {text l : List α} (hl : l ∈ terminated nl text) : nl ∉ l :=
  not_mem_of_mem_splitOn (List.dropLast_subset _ hl)

theorem not_mem_remainder (text : List α) : nl ∉ remainder nl text :=
  not_mem_of_mem_splitOn (List.getLast_mem _)

/-- Lines without newlines are counted by the newlines. -/
theorem count_unlines {ls : List (List α)} (h : ∀ l ∈ ls, nl ∉ l) :
    (unlines nl ls).count nl = ls.length := by
  induction ls with
  | nil => rfl
  | cons l ls ih =>
      rw [unlines_cons, List.count_append, List.count_cons_self,
        ih fun l' hl' => h l' (List.mem_cons_of_mem l hl'),
        List.count_eq_zero_of_not_mem (h l List.mem_cons_self), List.length_cons, Nat.zero_add]

end split

end TextLines
