import Llxvm.Backend.Types
import Mathlib.Tactic.IntervalCases

/-!
# Data layouts

Sizes and offsets of types under a data layout, the loop by which
`printGepInstruction` finds the offset of a field, and the comparison of the layout
that `jvm_backend` installs with the one of the front end (`clang -m32`).
-/

namespace Llxvm.Backend

open Align

/-- ABI alignments in bytes, as a data layout string gives them. -/
structure DataLayout where
  i1 : ℕ
  i8 : ℕ
  i16 : ℕ
  i32 : ℕ
  i64 : ℕ
  f32 : ℕ
  f64 : ℕ
  p : ℕ
  pos : 0 < i1 ∧ 0 < i8 ∧ 0 < i16 ∧ 0 < i32 ∧ 0 < i64 ∧ 0 < f32 ∧ 0 < f64 ∧ 0 < p

namespace DataLayout

/-- The layout that `jvm_backend` installs. -/
def jvm : DataLayout := ⟨1, 1, 2, 4, 8, 4, 8, 4, by decide⟩

/-- The i386 System V layout: 64 bit scalars are aligned to four bytes. -/
def i386 : DataLayout := ⟨1, 1, 2, 4, 4, 4, 4, 4, by decide⟩

variable (dl : DataLayout)

/-- The alignment of an integer is that of the next width in the table. -/
def intAlign (n : ℕ) : ℕ :=
  if n ≤ 1 then dl.i1
  else if n ≤ 8 then dl.i8
  else if n ≤ 16 then dl.i16
  else if n ≤ 32 then dl.i32
  else dl.i64

mutual

def getABITypeAlignment : Ty → ℕ
  | .int w => dl.intAlign w.bits
  | .float => dl.f32
  | .double => dl.f64
  | .pointer => dl.p
  | .array _ elem => getABITypeAlignment elem
  | .struct fields => fieldsAlignment fields

def fieldsAlignment : List Ty → ℕ
  | [] => 1
  | t :: ts => max (getABITypeAlignment t) (fieldsAlignment ts)

end

mutual

def getTypeAllocSize : Ty → ℕ
  | .int w => alignUp ((w.bits + 7) / 8) (dl.intAlign w.bits)
  | .float => alignUp 4 dl.f32
  | .double => alignUp 8 dl.f64
  | .pointer => alignUp 4 dl.p
  | .array n elem => n * getTypeAllocSize elem
  | .struct fields => alignUp (fieldsEnd 0 fields) (dl.fieldsAlignment fields)

/-- The end of the last of some fields, of which the first starts at or after `offset`. -/
def fieldsEnd (offset : ℕ) : List Ty → ℕ
  | [] => offset
  | t :: ts => fieldsEnd (alignUp offset (dl.getABITypeAlignment t) + getTypeAllocSize t) ts

end

/-- The offsets of the fields of a struct. -/
def fieldOffsets (offset : ℕ) : List Ty → List ℕ
  | [] => []
  | t :: ts => alignUp offset (dl.getABITypeAlignment t) ::
      fieldOffsets (alignUp offset (dl.getABITypeAlignment t) + dl.getTypeAllocSize t) ts

/-! ## The loop of `printGepInstruction` -/

/-- Unsigned 32 bit arithmetic. -/
def alignOffset (offset align : ℕ) : ℕ :=
  (offset + (align - offset % align) % align) % 2 ^ 32

/-- The loop over the fields before the indexed one. -/
def gepFieldLoop (size : ℕ) : List Ty → ℕ → ℕ
  | t :: t' :: ts, f + 1 =>
      gepFieldLoop (alignOffset ((size + dl.getTypeAllocSize t) % 2 ^ 32)
        (dl.getABITypeAlignment t')) (t' :: ts) f
  | _, _ => size

/-- The offset that `printGepInstruction` adds for a field. -/
def gepFieldOffset (fields : List Ty) (fieldIndex : ℕ) : ℕ := dl.gepFieldLoop 0 fields fieldIndex

theorem intAlign_pos (n : ℕ) : 0 < dl.intAlign n := by
  have := dl.pos
  unfold intAlign
  split_ifs <;> omega

mutual

theorem getABITypeAlignment_pos : ∀ t : Ty, 0 < dl.getABITypeAlignment t
  | .int w => dl.intAlign_pos w.bits
  | .float => by have := dl.pos; simp only [getABITypeAlignment]; omega
  | .double => by have := dl.pos; simp only [getABITypeAlignment]; omega
  | .pointer => by have := dl.pos; simp only [getABITypeAlignment]; omega
  | .array _ elem => getABITypeAlignment_pos elem
  | .struct fields => fieldsAlignment_pos fields

theorem fieldsAlignment_pos : ∀ ts : List Ty, 0 < dl.fieldsAlignment ts
  | [] => by simp [fieldsAlignment]
  | t :: ts => lt_max_of_lt_left (getABITypeAlignment_pos t)

end

theorem le_fieldsEnd (offset : ℕ) (ts : List Ty) : offset ≤ dl.fieldsEnd offset ts := by
  induction ts generalizing offset with
  | nil => exact le_rfl
  | cons t ts ih =>
      have := le_alignUp offset (dl.getABITypeAlignment t)
      exact (by omega : offset ≤ alignUp offset _ + dl.getTypeAllocSize t).trans (ih _)

theorem alignOffset_eq {offset align : ℕ} (h : alignUp offset align < 2 ^ 32) :
    alignOffset offset align = alignUp offset align :=
  Nat.mod_eq_of_lt h

@[simp] theorem length_fieldOffsets (offset : ℕ) (ts : List Ty) :
    (dl.fieldOffsets offset ts).length = ts.length := by
  induction ts generalizing offset with
  | nil => rfl
  | cons t ts ih => simp [fieldOffsets, ih]

/-- The loop finds the offset of the layout as long as nothing wraps around. -/
theorem gepFieldLoop_eq {offset : ℕ} {t : Ty} {ts : List Ty}
    (hfit : dl.fieldsEnd offset (t :: ts) < 2 ^ 32) {k : ℕ} (hk : k < ts.length + 1) :
    some (dl.gepFieldLoop (alignUp offset (dl.getABITypeAlignment t)) (t :: ts) k) =
      (dl.fieldOffsets offset (t :: ts))[k]? := by
  induction k generalizing offset t ts with
  | zero => cases ts <;> simp [gepFieldLoop, fieldOffsets]
  | succ k ih =>
      cases ts with
      | nil => simp at hk
      | cons t' ts =>
          rw [fieldsEnd] at hfit
          have hend := dl.le_fieldsEnd
            (alignUp offset (dl.getABITypeAlignment t) + dl.getTypeAllocSize t) (t' :: ts)
          have hnext : alignUp (alignUp offset (dl.getABITypeAlignment t) + dl.getTypeAllocSize t)
              (dl.getABITypeAlignment t') < 2 ^ 32 := by
            rw [fieldsEnd] at hfit
            have := dl.le_fieldsEnd (alignUp (alignUp offset (dl.getABITypeAlignment t) +
              dl.getTypeAllocSize t) (dl.getABITypeAlignment t') + dl.getTypeAllocSize t') ts
            omega
          rw [gepFieldLoop, Nat.mod_eq_of_lt (by omega), alignOffset_eq hnext]
          rw [ih hfit (by simpa using hk)]
          rfl

theorem gepFieldOffset_eq {fields : List Ty} (hfit : dl.fieldsEnd 0 fields < 2 ^ 32) {k : ℕ}
    (hk : k < fields.length) :
    some (dl.gepFieldOffset fields k) = (dl.fieldOffsets 0 fields)[k]? := by
  cases fields with
  | nil => simp at hk
  | cons t ts =>
      have h := dl.gepFieldLoop_eq hfit (by simpa using hk)
      rwa [alignUp_zero] at h

end DataLayout

/-! ## Agreement of the front end and the back end -/

mutual

/-- The type contains a 64 bit scalar. -/
def Ty.has64 : Ty → Bool
  | .int w => 32 < w.bits
  | .float => false
  | .double => true
  | .pointer => false
  | .array _ elem => elem.has64
  | .struct fields => fieldsHave64 fields

def fieldsHave64 : List Ty → Bool
  | [] => false
  | t :: ts => t.has64 || fieldsHave64 ts

end

mutual

/-- The layouts agree on the size of a type: all members with 64 bit scalars stand at i386
offsets divisible by eight, and so do the ends of the structs that contain them. -/
def Ty.sizeAgrees : Ty → Bool
  | .int _ => true
  | .float => true
  | .double => true
  | .pointer => true
  | .array n elem => n == 0 || elem.sizeAgrees
  | .struct fields => fieldsAgree 0 fields &&
      (!fieldsHave64 fields || DataLayout.i386.getTypeAllocSize (.struct fields) % 8 == 0)

/-- The same for fields of which the first starts at or after `offset`. -/
def fieldsAgree (offset : ℕ) : List Ty → Bool
  | [] => true
  | t :: ts =>
      let start := alignUp offset (DataLayout.i386.getABITypeAlignment t)
      (!t.has64 || start % 8 == 0) && t.sizeAgrees &&
        fieldsAgree (start + DataLayout.i386.getTypeAllocSize t) ts

end

section agreement

open DataLayout

/-- The two alignments of a type: eight and four with a 64 bit scalar, else equal. -/
def AlignCases (has64 : Bool) (aj ai : ℕ) : Prop :=
  (has64 = true ∧ aj = 8 ∧ ai = 4) ∨ (has64 = false ∧ aj = ai ∧ ai ∣ 4)

theorem alignCases_int (n : ℕ) :
    AlignCases (decide (32 < n)) (jvm.intAlign n) (i386.intAlign n) := by
  unfold AlignCases intAlign
  by_cases h : 32 < n
  · simp [h, show ¬ n ≤ 1 by omega, show ¬ n ≤ 8 by omega, show ¬ n ≤ 16 by omega,
      show ¬ n ≤ 32 by omega, jvm, i386]
  · have h32 : n ≤ 32 := by omega
    simp only [h, h32, if_true, decide_false, jvm, i386, true_and, Bool.false_eq_true, false_and,
      false_or]
    split_ifs <;> decide

mutual

theorem alignCases : ∀ t : Ty,
    AlignCases t.has64 (jvm.getABITypeAlignment t) (i386.getABITypeAlignment t)
  | .int w => alignCases_int w.bits
  | .float => by simp [AlignCases, Ty.has64, getABITypeAlignment, jvm, i386]
  | .double => by simp [AlignCases, Ty.has64, getABITypeAlignment, jvm, i386]
  | .pointer => by simp [AlignCases, Ty.has64, getABITypeAlignment, jvm, i386]
  | .array _ elem => alignCases elem
  | .struct fields => alignCases_fields fields

theorem alignCases_fields : ∀ ts : List Ty,
    AlignCases (fieldsHave64 ts) (jvm.fieldsAlignment ts) (i386.fieldsAlignment ts)
  | [] => by simp [AlignCases, fieldsHave64, fieldsAlignment]
  | t :: ts => by
      have hdvd : ∀ {a : ℕ}, a ∣ 4 → a = 1 ∨ a = 2 ∨ a = 4 := by
        intro a ha
        have := Nat.le_of_dvd (by decide) ha
        interval_cases a <;> omega
      simp only [fieldsHave64, fieldsAlignment]
      rcases alignCases t with ⟨h, hj, hi⟩ | ⟨h, hj, hi⟩ <;>
        rcases alignCases_fields ts with ⟨h', hj', hi'⟩ | ⟨h', hj', hi'⟩ <;>
        rw [h, h', hj, hj']
      · left
        simp [hi, hi']
      · left
        have := hdvd hi'
        simp only [Bool.true_or, true_and]
        omega
      · left
        have := hdvd hi
        simp only [Bool.or_true, true_and]
        omega
      · right
        refine ⟨rfl, rfl, ?_⟩
        rcases max_choice (i386.getABITypeAlignment t) (i386.fieldsAlignment ts) with h | h <;>
          rw [h] <;> assumption

end

/-- Rounding under both layouts: a surplus of `4 * e` bytes is kept, and grows exactly when a
64 bit scalar does not stand at a multiple of eight. -/
theorem alignUp_surplus {has64 : Bool} {aj ai : ℕ} (h : AlignCases has64 aj ai) (x e : ℕ) :
    ∃ d, alignUp (x + 4 * e) aj = alignUp x ai + 4 * d ∧ e ≤ d ∧
      (d = 0 ↔ e = 0 ∧ (!has64 || alignUp x ai % 8 == 0)) := by
  rcases h with ⟨rfl, rfl, rfl⟩ | ⟨rfl, rfl, hdvd⟩
  · have hshift : alignUp (x + 4 * e) 4 = alignUp x 4 + 4 * e := by
      rw [Nat.add_comm, alignUp_add_left _ (Dvd.intro e rfl), Nat.add_comm]
    have htwo : alignUp (x + 4 * e) 8 = alignUp (x + 4 * e) 4 +
        if 8 ∣ alignUp (x + 4 * e) 4 then 0 else 4 :=
      alignUp_two_mul _ (by decide : 0 < 4)
    rw [hshift] at htwo
    by_cases h8 : 8 ∣ alignUp x 4 + 4 * e
    · rw [if_pos h8] at htwo
      refine ⟨e, by omega, le_rfl, ?_⟩
      constructor
      · rintro rfl
        simpa using Nat.mod_eq_zero_of_dvd h8
      · exact fun h => h.1
    · rw [if_neg h8] at htwo
      refine ⟨e + 1, by omega, by omega, ?_⟩
      constructor
      · simp
      · rintro ⟨rfl, h⟩
        simp only [Bool.not_true, Bool.false_or, beq_iff_eq] at h
        exact (h8 (Nat.dvd_of_mod_eq_zero h)).elim
  · refine ⟨e, ?_, le_rfl, by simp⟩
    rw [Nat.add_comm x, alignUp_add_left _ (hdvd.mul_right e), Nat.add_comm]

theorem intSize_eq (w : IntWidth) :
    jvm.getTypeAllocSize (.int w) = i386.getTypeAllocSize (.int w) := by
  have hle := w.le
  simp only [getTypeAllocSize]
  rcases alignCases_int w.bits with ⟨h, hj, hi⟩ | ⟨-, hj, -⟩
  · -- five to eight bytes, rounded up to four or eight
    have h32 : 32 < w.bits := by simpa using h
    rw [hj, hi]
    have hlo : 5 ≤ (w.bits + 7) / 8 := by omega
    have hhi : (w.bits + 7) / 8 ≤ 8 := by omega
    generalize (w.bits + 7) / 8 = bytes at *
    interval_cases bytes <;> rfl
  · rw [hj]

mutual

/-- No type is smaller under the installed layout, and it is not larger exactly when the
layouts agree. -/
theorem size_surplus : ∀ t : Ty,
    ∃ d, jvm.getTypeAllocSize t = i386.getTypeAllocSize t + 4 * d ∧ (d = 0 ↔ t.sizeAgrees)
  | .int w => ⟨0, by simpa using intSize_eq w, by simp [Ty.sizeAgrees]⟩
  | .float => ⟨0, rfl, by simp [Ty.sizeAgrees]⟩
  | .double => ⟨0, rfl, by simp [Ty.sizeAgrees]⟩
  | .pointer => ⟨0, rfl, by simp [Ty.sizeAgrees]⟩
  | .array n elem => by
      obtain ⟨d, hsize, hzero⟩ := size_surplus elem
      refine ⟨n * d, ?_, ?_⟩
      · simp only [getTypeAllocSize, hsize]
        ring
      · simp [Ty.sizeAgrees, hzero]
  | .struct fields => by
      obtain ⟨d, hend, -, hzero⟩ := fieldsEnd_surplus fields 0 0
      obtain ⟨d', hsize, hle, hzero'⟩ :=
        alignUp_surplus (alignCases_fields fields) (i386.fieldsEnd 0 fields) d
      rw [Nat.mul_zero, Nat.add_zero] at hend
      refine ⟨d', ?_, ?_⟩
      · simp only [getTypeAllocSize, hend, hsize]
      · simp [hzero', hzero, Ty.sizeAgrees, getTypeAllocSize]

theorem fieldsEnd_surplus : ∀ (ts : List Ty) (x e : ℕ),
    ∃ d, jvm.fieldsEnd (x + 4 * e) ts = i386.fieldsEnd x ts + 4 * d ∧ e ≤ d ∧
      (d = 0 ↔ e = 0 ∧ fieldsAgree x ts)
  | [], x, e => ⟨e, rfl, le_rfl, by simp [fieldsAgree]⟩
  | t :: ts, x, e => by
      obtain ⟨d₁, hstart, hle₁, hzero₁⟩ := alignUp_surplus (alignCases t) x e
      obtain ⟨d₂, hsize, hzero₂⟩ := size_surplus t
      obtain ⟨d, hend, hle, hzero⟩ := fieldsEnd_surplus ts
        (alignUp x (i386.getABITypeAlignment t) + i386.getTypeAllocSize t) (d₁ + d₂)
      refine ⟨d, ?_, by omega, ?_⟩
      · rw [DataLayout.fieldsEnd, hstart, hsize, DataLayout.fieldsEnd, ← hend]
        congr 1
        ring
      · rw [hzero, Nat.add_eq_zero_iff, hzero₁, hzero₂]
        simp only [fieldsAgree, Bool.and_eq_true]
        tauto

end

/-- Where the layouts agree on all sizes they agree on the offsets. -/
theorem fieldOffsets_eq {ts : List Ty} {x : ℕ} (h : fieldsAgree x ts) :
    jvm.fieldOffsets x ts = i386.fieldOffsets x ts := by
  induction ts generalizing x with
  | nil => rfl
  | cons t ts ih =>
      simp only [fieldsAgree, Bool.and_eq_true] at h
      obtain ⟨⟨hstart, hsize⟩, hrest⟩ := h
      obtain ⟨d₁, heq₁, -, hzero₁⟩ := alignUp_surplus (alignCases t) x 0
      obtain ⟨d₂, heq₂, hzero₂⟩ := size_surplus t
      rw [hzero₁.mpr ⟨rfl, hstart⟩] at heq₁
      rw [hzero₂.mpr hsize] at heq₂
      simp only [Nat.mul_zero, Nat.add_zero] at heq₁ heq₂
      simp only [fieldOffsets, heq₁, heq₂, ih hrest]

/-- The numbers that the writer uses for a struct are those of the bitcode: every field
offset of `printGepInstruction`, and the size of `printAllocaInstruction` and
`printClInit`. -/
structure LayoutAgrees (fields : List Ty) : Prop where
  offsets : ∀ k < fields.length,
    some (jvm.gepFieldOffset fields k) = (i386.fieldOffsets 0 fields)[k]?
  size : jvm.getTypeAllocSize (.struct fields) = i386.getTypeAllocSize (.struct fields)

/-- The layouts agree exactly on the structs in which all 64 bit scalars happen to be
aligned to eight bytes.  The struct has to fit the 32 bit address space. -/
theorem layoutAgrees_iff (fields : List Ty)
    (hfit : jvm.getTypeAllocSize (.struct fields) < 2 ^ 32) :
    LayoutAgrees fields ↔ (Ty.struct fields).sizeAgrees := by
  obtain ⟨d, hsize, hzero⟩ := size_surplus (.struct fields)
  constructor
  · intro h
    rw [← hzero]
    have := h.size
    omega
  · intro h
    refine ⟨fun k hk => ?_, ?_⟩
    · have hend : jvm.fieldsEnd 0 fields < 2 ^ 32 :=
        (le_alignUp _ (jvm.fieldsAlignment fields)).trans_lt hfit
      have hfields : fieldsAgree 0 fields := by
        simp only [Ty.sizeAgrees, Bool.and_eq_true] at h
        exact h.1
      rw [jvm.gepFieldOffset_eq hend hk, fieldOffsets_eq hfields]
    · rw [hsize, hzero.mpr h, Nat.mul_zero, Nat.add_zero]

/-- Two doubles, a pointer and an `i32` have one layout. -/
theorem layoutAgrees_aligned :
    LayoutAgrees [.double, .array 1 .double, .pointer, .int .w32] :=
  (layoutAgrees_iff [.double, .array 1 .double, .pointer, .int .w32] (by decide)).mpr (by decide)

/-- `struct { int a; long long b; }`: the field `b` is at 4 in the bitcode and at 8 in the
translated code. -/
theorem layoutDiffers_i32_i64 :
    ¬ LayoutAgrees [.int .w32, .int .w64] ∧
      jvm.gepFieldOffset [.int .w32, .int .w64] 1 = 8 ∧
      (i386.fieldOffsets 0 [.int .w32, .int .w64])[1]? = some 4 := by
  refine ⟨fun h => ?_, by decide, by decide⟩
  have := h.offsets 1 (by decide)
  revert this
  decide

end agreement

end Llxvm.Backend
