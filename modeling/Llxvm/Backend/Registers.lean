import Llxvm.Backend.BodyLabels
import Llxvm.Backend.Slots

/-!
# Registers

The counter of local variables while the body of a method is printed.  Calls of `setjmp` take
local variables one after the other; only a value that has none yet comes between them.
-/

namespace Llxvm.Backend

open Llxvm.Jvm

/-! ## Values and their local variables -/

/-- The values of `vars` have local variables apart from each other, which have been given out. -/
structure Numbered (vars : List Local) (w : Writer) : Prop where
  given : ∀ id n, w.localVars.lookup id = some n → n < w.usedRegisters
  room : ∀ v ∈ vars, ∀ n, w.Has v n → n + v.ty.registers ≤ w.usedRegisters
  apart : ∀ u ∈ vars, ∀ v ∈ vars, u.id ≠ v.id → ∀ m n, w.Has u m → w.Has v n →
    m + u.ty.registers ≤ n ∨ n + v.ty.registers ≤ m

namespace Numbered

variable {vars : List Local} {w w' : Writer}

theorem of_empty (h : w.localVars = []) : Numbered vars w :=
  ⟨by simp [h], by simp [Writer.Has, h], by simp [Writer.Has, h]⟩

theorem later (h : Numbered vars w) (hvars : w'.localVars = w.localVars)
    (hused : w.usedRegisters ≤ w'.usedRegisters) : Numbered vars w' := by
  have hhas : ∀ {v n}, w'.Has v n ↔ w.Has v n := by
    intro v n
    rw [Writer.Has, Writer.Has, hvars]
  exact ⟨fun id n hn => (h.given id n (hvars ▸ hn)).trans_le hused,
    fun v hv n hn => (h.room v hv n (hhas.mp hn)).trans hused,
    fun u hu v hv hne m n hm hn => h.apart u hu v hv hne m n (hhas.mp hm) (hhas.mp hn)⟩

theorem touch (h : Numbered vars w) {v : Local} (hv : ∀ u ∈ vars, u.id = v.id → u = v) :
    Numbered vars (w.touch v) := by
  have hle := (later_touch w v).usedRegisters_le
  have hpos := v.ty.registers_pos
  refine ⟨fun id n hn => ?_, fun u hu n hn => ?_, fun u hu u' hu' hne m n hm hn => ?_⟩
  · rcases lookup_touch hn with hold | ⟨-, -, rfl, hused⟩
    · exact (h.given id n hold).trans_le hle
    · omega
  · rcases lookup_touch hn with hold | ⟨-, hid, rfl, hused⟩
    · exact (h.room u hu n hold).trans hle
    · rw [hv u hu hid, hused]
  · rcases lookup_touch hm with hm | ⟨-, hid, rfl, -⟩
    · rcases lookup_touch hn with hn | ⟨-, hid', rfl, -⟩
      · exact h.apart u hu u' hu' hne m n hm hn
      · exact .inl (h.room u hu m hm)
    · rcases lookup_touch hn with hn | ⟨-, hid', -, -⟩
      · exact .inr (h.room u' hu' n hn)
      · exact (hne (hid.trans hid'.symm)).elim

theorem foldl_touch (h : Numbered vars w) {vs : List Local}
    (hvs : ∀ v ∈ vs, ∀ u ∈ vars, u.id = v.id → u = v) :
    Numbered vars (vs.foldl Writer.touch w) := by
  induction vs generalizing w with
  | nil => exact h
  | cons v vs ih =>
      exact ih (h.touch (hvs v List.mem_cons_self)) fun u hu => hvs u (List.mem_cons_of_mem v hu)

end Numbered

theorem Writer.Has.foldl_touch {w : Writer} {u : Local} {n : ℕ} (h : w.Has u n) (vs : List Local) :
    (vs.foldl Writer.touch w).Has u n := by
  induction vs generalizing w with
  | nil => exact h
  | cons v vs ih => exact ih (h.touch v)

theorem isSome_lookup_foldl_touch (w : Writer) (vs : List Local) (id : ℕ) :
    ((vs.foldl Writer.touch w).localVars.lookup id).isSome ↔
      (w.localVars.lookup id).isSome ∨ ∃ v ∈ vs, v.id = id := by
  induction vs generalizing w with
  | nil => simp
  | cons v vs ih =>
      rw [List.foldl_cons, ih, isSome_lookup_touch, or_assoc, List.exists_mem_cons_iff,
        eq_comm (a := id)]

/-- The registers of the values that have none of the numbers `seen`, each of which is counted
once. -/
def freshRegisters : List ℕ → List Local → ℕ
  | _, [] => 0
  | seen, v :: vs =>
      if v.id ∈ seen then freshRegisters seen vs
      else v.ty.registers + freshRegisters (v.id :: seen) vs

/-- What matters of the numbers is whether they are those of values. -/
theorem freshRegisters_congr {seen seen' : List ℕ} {vs : List Local}
    (h : ∀ v ∈ vs, v.id ∈ seen ↔ v.id ∈ seen') :
    freshRegisters seen vs = freshRegisters seen' vs := by
  induction vs generalizing seen seen' with
  | nil => rfl
  | cons v vs ih =>
      have hrest : ∀ u ∈ vs, u.id ∈ seen ↔ u.id ∈ seen' :=
        fun u hu => h u (List.mem_cons_of_mem v hu)
      have hcons : ∀ u ∈ vs, u.id ∈ v.id :: seen ↔ u.id ∈ v.id :: seen' := fun u hu => by
        rw [List.mem_cons, List.mem_cons, hrest u hu]
      simp only [freshRegisters, h v List.mem_cons_self, ih hrest, ih hcons]

theorem usedRegisters_foldl_touch {w : Writer} {seen : List ℕ}
    (h : ∀ id, id ∈ seen ↔ (w.localVars.lookup id).isSome) (vs : List Local) :
    (vs.foldl Writer.touch w).usedRegisters = w.usedRegisters + freshRegisters seen vs := by
  induction vs generalizing w seen with
  | nil => rfl
  | cons v vs ih =>
      rw [List.foldl_cons, freshRegisters]
      cases hlookup : w.localVars.lookup v.id with
      | some n =>
          have htouch : w.touch v = w := by simp [Writer.touch, hlookup]
          rw [htouch, if_pos ((h v.id).mpr (by rw [hlookup]; rfl)), ih h]
      | none =>
          have hseen : v.id ∉ seen := fun hmem => by
            have := (h v.id).mp hmem
            rw [hlookup] at this
            cases this
          have hused : (w.touch v).usedRegisters = w.usedRegisters + v.ty.registers := by
            simp [Writer.touch, hlookup]
          have hcons : ∀ id, id ∈ v.id :: seen ↔ ((w.touch v).localVars.lookup id).isSome := by
            intro id
            rw [List.mem_cons, isSome_lookup_touch, h id, or_comm]
          rw [ih hcons, hused, if_neg hseen]
          omega

/-- The values that have local variables: those that had one, and those that the operations use. -/
theorem isSome_lookup_foldl_after (w : Writer) (ops : List Operation) (id : ℕ) :
    ((ops.foldl Writer.after w).localVars.lookup id).isSome ↔
      (w.localVars.lookup id).isSome ∨ ∃ op ∈ ops, ∃ v, op.register = some v ∧ v.id = id := by
  induction ops generalizing w with
  | nil => simp
  | cons op ops ih =>
      have hop : ((w.after op).localVars.lookup id).isSome ↔
          (w.localVars.lookup id).isSome ∨ ∃ v, op.register = some v ∧ v.id = id := by
        unfold Writer.after
        cases hregister : op.register with
        | some v =>
            simp only [Option.some.injEq, exists_eq_left']
            rw [isSome_lookup_touch, eq_comm (a := id)]
        | none => cases hset : op.isSetjmp <;> simp
      rw [List.foldl_cons, ih, hop, or_assoc, List.exists_mem_cons_iff]

/-! ## The counter -/

/-- The local variables that an operation takes for a value that has none. -/
def Writer.fresh (w : Writer) (op : Operation) : ℕ :=
  match op.register with
  | some v => if (w.localVars.lookup v.id).isSome then 0 else v.ty.registers
  | none => 0

/-- The local variables that operations take for values that have none. -/
def extra : Writer → List Operation → ℕ
  | _, [] => 0
  | w, op :: ops => w.fresh op + extra (w.after op) ops

def numSetjmp (ops : List Operation) : ℕ := ops.countP Operation.isSetjmp

theorem register_of_isSetjmp {op : Operation} (h : op.isSetjmp = true) : op.register = none := by
  unfold Operation.isSetjmp at h
  split at h
  · rfl
  · cases h

theorem usedRegisters_after (w : Writer) (op : Operation) :
    (w.after op).usedRegisters =
      w.usedRegisters + (if op.isSetjmp then 1 else 0) + w.fresh op := by
  unfold Writer.after Writer.fresh
  cases hregister : op.register with
  | some v =>
      have hset : op.isSetjmp = false := by
        by_contra h
        rw [Bool.not_eq_false] at h
        rw [register_of_isSetjmp h] at hregister
        cases hregister
      simp only [hset, Writer.touch]
      cases hlookup : w.localVars.lookup v.id <;> simp
  | none => cases hset : op.isSetjmp <;> simp

theorem usedRegisters_foldl (w : Writer) (ops : List Operation) :
    (ops.foldl Writer.after w).usedRegisters = w.usedRegisters + numSetjmp ops + extra w ops := by
  induction ops generalizing w with
  | nil => rfl
  | cons op ops ih =>
      rw [List.foldl_cons, ih, usedRegisters_after, numSetjmp, numSetjmp, List.countP_cons, extra]
      cases op.isSetjmp <;> simp <;> omega

theorem length_jumps (w : Writer) (ops : List Operation) :
    (jumps w ops).length = numSetjmp ops := by
  induction ops generalizing w with
  | nil => rfl
  | cons op ops ih =>
      rw [jumps, List.length_append, ih, numSetjmp, numSetjmp, List.countP_cons]
      cases op.isSetjmp <;> simp [Nat.add_comm]

/-- Without fresh values the calls of `setjmp` take the next local variables. -/
theorem jumps_eq_range {w : Writer} {ops : List Operation} (h : extra w ops = 0) :
    jumps w ops = List.range' w.usedRegisters (numSetjmp ops) := by
  induction ops generalizing w with
  | nil => rfl
  | cons op ops ih =>
      obtain ⟨hfresh, hrest⟩ := Nat.add_eq_zero_iff.mp h
      rw [jumps, ih hrest, usedRegisters_after, hfresh, numSetjmp, numSetjmp, List.countP_cons]
      cases op.isSetjmp with
      | false => simp
      | true => simp [List.range'_succ]

/-- No value gets its local variable behind a call of `setjmp`. -/
def AllocatesFirst : Writer → List Operation → Prop
  | _, [] => True
  | w, op :: ops =>
      if op.isSetjmp then extra (w.after op) ops = 0 else AllocatesFirst (w.after op) ops

/-- The last local variables are those of the calls of `setjmp` exactly if no value gets its own
behind one of them. -/
theorem range_subset_jumps_iff (w : Writer) (ops : List Operation) :
    List.range' ((ops.foldl Writer.after w).usedRegisters - numSetjmp ops) (numSetjmp ops) ⊆
      jumps w ops ↔ AllocatesFirst w ops := by
  induction ops generalizing w with
  | nil => simp [numSetjmp, AllocatesFirst]
  | cons op ops ih =>
      rw [List.foldl_cons, numSetjmp, List.countP_cons, jumps, AllocatesFirst]
      cases hset : op.isSetjmp with
      | false => simpa [numSetjmp] using ih (w.after op)
      | true =>
          have hused := usedRegisters_foldl (w.after op) ops
          have hafter := usedRegisters_after w op
          have hfresh : w.fresh op = 0 := by
            unfold Writer.fresh
            rw [register_of_isSetjmp hset]
          rw [hset, hfresh] at hafter
          simp only [if_true, List.singleton_append]
          change List.range' (_ - (numSetjmp ops + 1)) (numSetjmp ops + 1) ⊆ _ ↔ _
          constructor
          · intro hsub
            -- all numbers of the range are calls of `setjmp`, so the first one is the smallest
            have hperm := (List.subperm_of_subset List.nodup_range' hsub).perm_of_length_le (by
              rw [List.length_cons, length_jumps, List.length_range'])
            have hmem := hperm.mem_iff.mpr List.mem_cons_self
            rw [List.mem_range'_1] at hmem
            simp only [if_true] at hafter
            omega
          · intro hextra
            rw [jumps_eq_range hextra, hused, hafter, hextra]
            have hstart : w.usedRegisters + 1 + 0 + numSetjmp ops + 0 - (numSetjmp ops + 1) =
                w.usedRegisters := by omega
            simp only [if_true]
            rw [hstart, List.range'_succ]
            exact fun n hn => hn

/-! ## The condition on the operations -/

theorem extra_eq_zero_iff (w : Writer) (ops : List Operation) :
    extra w ops = 0 ↔ ∀ op ∈ ops, ∀ v, op.register = some v → (w.localVars.lookup v.id).isSome := by
  induction ops generalizing w with
  | nil => simp [extra]
  | cons op ops ih =>
      have hfresh : w.fresh op = 0 ↔
          ∀ v, op.register = some v → (w.localVars.lookup v.id).isSome := by
        unfold Writer.fresh
        cases hregister : op.register with
        | none => simp
        | some v =>
            have hpos := v.ty.registers_pos
            simp only [Option.some.injEq, forall_eq']
            split_ifs with hlookup
            · simp only [hlookup]
            · refine iff_of_false (by omega) hlookup
      rw [extra, Nat.add_eq_zero_iff, hfresh, ih, List.forall_mem_cons]
      refine and_congr_right fun hop => forall₂_congr fun op' hop' => forall₂_congr fun v hv => ?_
      rw [show w.after op = [op].foldl Writer.after w from rfl, isSome_lookup_foldl_after]
      refine or_iff_left_of_imp ?_
      rintro ⟨op'', hmem, u, hu, hid⟩
      obtain rfl := List.mem_singleton.mp hmem
      rw [← hid]
      exact hop u hu

/-- In terms of the operations: what is used behind a call of `setjmp` has a local variable, or is
used before all of them as well. -/
theorem allocatesFirst_iff (w : Writer) (ops : List Operation) :
    AllocatesFirst w ops ↔ ∀ op ∈ ops.dropWhile fun op => !op.isSetjmp, ∀ v, op.register = some v →
      (w.localVars.lookup v.id).isSome ∨ ∃ op' ∈ ops.takeWhile fun op => !op.isSetjmp,
        ∃ u, op'.register = some u ∧ u.id = v.id := by
  induction ops generalizing w with
  | nil => simp [AllocatesFirst]
  | cons op ops ih =>
      rw [AllocatesFirst, List.dropWhile_cons, List.takeWhile_cons]
      cases hset : op.isSetjmp with
      | true =>
          have hregister := register_of_isSetjmp hset
          have hvars : (w.after op).localVars = w.localVars := by
            unfold Writer.after
            rw [hregister]
            simp only [hset, if_true]
          simp [extra_eq_zero_iff, hvars, hregister]
      | false =>
          have hlookup : ∀ id, ((w.after op).localVars.lookup id).isSome ↔
              (w.localVars.lookup id).isSome ∨ ∃ v, op.register = some v ∧ v.id = id := by
            intro id
            rw [show w.after op = [op].foldl Writer.after w from rfl, isSome_lookup_foldl_after]
            simp only [List.mem_singleton, exists_eq_left]
          simp only [Bool.false_eq_true, if_false, Bool.not_false, if_true, ih, hlookup, or_assoc,
            List.exists_mem_cons_iff]

end Llxvm.Backend
