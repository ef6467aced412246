import Mathlib.Data.List.Nodup
import Mathlib.Order.Lattice
import Mathlib.Tactic.Tauto

/-!
# Ordered maps

A map as the list of its entries in the order of the keys, which is the order in which it is
iterated.
-/

/-- The entries of a map. -/
abbrev OrderedMap (κ υ : Type) := List (κ × υ)

namespace OrderedMap

variable {κ υ : Type} [LinearOrder κ]

/-- Add an entry or replace the one with the same key. -/
def insert (k : κ) (v : υ) : OrderedMap κ υ → OrderedMap κ υ
  | [] => [(k, v)]
  | (k', v') :: m =>
      if k < k' then (k, v) :: (k', v') :: m
      else if k = k' then (k, v) :: m
      else (k', v') :: insert k v m

def find : OrderedMap κ υ → κ → Option υ
  | [], _ => none
  | (k', v) :: m, k => if k = k' then some v else find m k

theorem find_insert (m : OrderedMap κ υ) (k k' : κ) (v : υ) :
    find (insert k v m) k' = if k' = k then some v else find m k' := by
  induction m with
  | nil => rfl
  | cons e m ih =>
      obtain ⟨a, b⟩ := e
      unfold insert
      by_cases hlt : k < a
      · rw [if_pos hlt, find]
      · rw [if_neg hlt]
        by_cases heq : k = a
        · subst heq
          rw [if_pos rfl, find, find]
          split_ifs <;> rfl
        · rw [if_neg heq, find, find, ih]
          by_cases hk : k' = a
          · rw [if_pos hk, if_pos hk, if_neg (hk ▸ Ne.symm heq)]
          · rw [if_neg hk, if_neg hk]

theorem find_mem {m : OrderedMap κ υ} {k : κ} {v : υ} (h : find m k = some v) : (k, v) ∈ m := by
  induction m with
  | nil => cases h
  | cons e m ih =>
      obtain ⟨a, b⟩ := e
      unfold find at h
      split_ifs at h with heq
      · cases h
        rw [heq]
        exact List.mem_cons_self
      · exact List.mem_cons_of_mem _ (ih h)

theorem mem_insert {k : κ} {v : υ} {m : OrderedMap κ υ} {e : κ × υ} (h : e ∈ insert k v m) :
    e = (k, v) ∨ e ∈ m := by
  induction m with
  | nil => exact .inl (List.mem_singleton.mp h)
  | cons a m ih =>
      unfold insert at h
      split_ifs at h
      · exact List.mem_cons.mp h
      · exact (List.mem_cons.mp h).imp_right (List.mem_cons_of_mem a)
      · rcases List.mem_cons.mp h with rfl | h
        · exact .inr List.mem_cons_self
        · exact (ih h).imp_right (List.mem_cons_of_mem a)

/-! ## The order of the entries -/

/-- The keys are in ascending order, each once. -/
def Sorted (m : OrderedMap κ υ) : Prop := m.Pairwise fun e e' => e.1 < e'.1

theorem sorted_nil : Sorted ([] : OrderedMap κ υ) := List.Pairwise.nil

theorem Sorted.nodup_keys {m : OrderedMap κ υ} (h : Sorted m) : (m.map Prod.fst).Nodup :=
  List.pairwise_map.mpr (h.imp ne_of_lt)

theorem Sorted.key_le {pre post : OrderedMap κ υ} {e e' : κ × υ} (h : Sorted (pre ++ e :: post))
    (hmem : e' ∈ pre ++ e :: post) (hpost : e' ∉ post) : e'.1 ≤ e.1 := by
  rcases List.mem_append.mp hmem with hpre | htail
  · exact le_of_lt ((List.pairwise_append.mp h).2.2 e' hpre e List.mem_cons_self)
  · rcases List.mem_cons.mp htail with rfl | htail
    · exact le_refl _
    · exact absurd htail hpost

theorem sorted_insert {m : OrderedMap κ υ} (h : Sorted m) (k : κ) (v : υ) :
    Sorted (insert k v m) := by
  induction m with
  | nil => exact List.pairwise_singleton _ _
  | cons e m ih =>
      obtain ⟨hfirst, hrest⟩ := List.pairwise_cons.mp h
      unfold insert
      split_ifs with hlt heq
      · refine List.pairwise_cons.mpr ⟨fun e' he' => ?_, h⟩
        rcases List.mem_cons.mp he' with rfl | he'
        · exact hlt
        · exact lt_trans hlt (hfirst e' he')
      · exact List.pairwise_cons.mpr ⟨fun e' he' => heq ▸ hfirst e' he', hrest⟩
      · refine List.pairwise_cons.mpr ⟨fun e' he' => ?_, ih hrest⟩
        rcases mem_insert he' with rfl | he'
        · exact lt_of_le_of_ne (not_lt.mp hlt) (Ne.symm heq)
        · exact hfirst e' he'

/-- A new key leaves the other entries alone. -/
theorem mem_insert_iff {m : OrderedMap κ υ} {k : κ} {v : υ} (h : ∀ e ∈ m, e.1 ≠ k)
    {e : κ × υ} : e ∈ insert k v m ↔ e = (k, v) ∨ e ∈ m := by
  induction m with
  | nil => simp [insert]
  | cons a m ih =>
      obtain ⟨ha, hm⟩ := List.forall_mem_cons.mp h
      unfold insert
      rw [if_neg (Ne.symm ha)]
      split_ifs
      · exact List.mem_cons
      · rw [List.mem_cons, ih hm, List.mem_cons]
        tauto

/-! ## Inserting the entries of a list -/

theorem sorted_foldl_insert {m : OrderedMap κ υ} (h : Sorted m) (cs : List (κ × υ)) :
    Sorted (cs.foldl (fun m c => insert c.1 c.2 m) m) := by
  induction cs generalizing m with
  | nil => exact h
  | cons c cs ih => exact ih (sorted_insert h c.1 c.2)

/-- With new and distinct keys all entries are there. -/
theorem mem_foldl_insert_iff {cs : List (κ × υ)} {m : OrderedMap κ υ}
    (hcs : (cs.map Prod.fst).Nodup) (h : ∀ e ∈ m, ∀ c ∈ cs, e.1 ≠ c.1) {e : κ × υ} :
    e ∈ cs.foldl (fun m c => insert c.1 c.2 m) m ↔ e ∈ cs ∨ e ∈ m := by
  induction cs generalizing m with
  | nil => simp
  | cons c cs ih =>
      rw [List.map_cons, List.nodup_cons] at hcs
      have hnew : ∀ e ∈ m, e.1 ≠ c.1 := fun e he => h e he c List.mem_cons_self
      rw [List.foldl_cons, ih hcs.2, mem_insert_iff hnew, List.mem_cons]
      · tauto
      · intro e he c' hc' heq
        rcases (mem_insert_iff hnew).mp he with rfl | he
        · exact hcs.1 (heq ▸ List.mem_map_of_mem hc')
        · exact h e he c' (List.mem_cons_of_mem c hc') heq

/-- The value of a key is that of its last entry. -/
theorem find_foldl_insert_const (cs : List κ) (v : υ) (m : OrderedMap κ υ) (k : κ) :
    find (cs.foldl (fun m c => insert c v m) m) k = if k ∈ cs then some v else find m k := by
  induction cs generalizing m with
  | nil => simp
  | cons c cs ih =>
      rw [List.foldl_cons, ih, find_insert]
      by_cases hk : k = c
      · simp [hk]
      · simp [hk]

theorem mem_foldl_insert {cs : List (κ × υ)} {m : OrderedMap κ υ} {e : κ × υ}
    (h : e ∈ cs.foldl (fun m c => insert c.1 c.2 m) m) : e ∈ cs ∨ e ∈ m := by
  induction cs generalizing m with
  | nil => exact .inr h
  | cons c cs ih =>
      rcases ih h with h | h
      · exact .inl (List.mem_cons_of_mem c h)
      · rcases mem_insert h with rfl | h
        · exact .inl List.mem_cons_self
        · exact .inr h

theorem find_foldl_insert_isSome {cs : List (κ × υ)} {m : OrderedMap κ υ} {k : κ}
    (h : (∃ v, (k, v) ∈ cs) ∨ (find m k).isSome) :
    (find (cs.foldl (fun m c => insert c.1 c.2 m) m) k).isSome := by
  induction cs generalizing m with
  | nil => exact h.resolve_left (by simp)
  | cons c cs ih =>
      apply ih
      by_cases hk : k = c.1
      · right
        rw [find_insert, if_pos hk]
        rfl
      · rw [find_insert, if_neg hk]
        refine h.imp_left ?_
        rintro ⟨v, hv⟩
        rcases List.mem_cons.mp hv with rfl | hv
        · exact (hk rfl).elim
        · exact ⟨v, hv⟩

theorem exists_mem_foldl_insert {cs : List (κ × υ)} {e : κ × υ} (h : e ∈ cs) :
    ∃ v, (e.1, v) ∈ cs.foldl (fun m c => insert c.1 c.2 m) [] := by
  obtain ⟨v, hv⟩ := Option.isSome_iff_exists.mp (find_foldl_insert_isSome (m := []) (.inl ⟨e.2, h⟩))
  exact ⟨v, find_mem hv⟩

end OrderedMap
