import Llxvm.Backend.DataLayout

/-!
# Field offsets of packed and unpacked structs

The loop of `printGepInstruction` over the fields of any struct type, and the offsets that
LLVM's `StructLayout` assigns to them.  The loop does not ask whether the struct is packed.
-/

namespace Llxvm.Backend

open Align DataLayout

/-- An ABI alignment is a power of two that an `unsigned` holds. -/
structure AbiAlign where
  log : ℕ
  lt : log < 32

def AbiAlign.bytes (a : AbiAlign) : ℕ := 2 ^ a.log

theorem AbiAlign.bytes_dvd (a : AbiAlign) : a.bytes ∣ 2 ^ 32 := Nat.pow_dvd_pow 2 a.lt.le

/-- What the data layout knows about a type: scalars of any size and alignment, arrays, and
structs with their `packed` attribute. -/
inductive Shape where
  | scalar (bytes : ℕ) (align : AbiAlign)
  | array (n : ℕ) (elem : Shape)
  | struct (packed : Bool) (fields : List Shape)

namespace Shape

mutual

def getABITypeAlignment : Shape → ℕ
  | .scalar _ align => align.bytes
  | .array _ elem => getABITypeAlignment elem
  | .struct packed fields => if packed then 1 else fieldsAlignment fields

def fieldsAlignment : List Shape → ℕ
  | [] => 1
  | t :: ts => max (getABITypeAlignment t) (fieldsAlignment ts)

end

/-- Where a field starts whose predecessors end at `offset`. -/
def fieldStart (packed : Bool) (offset : ℕ) (t : Shape) : ℕ :=
  if packed then offset else alignUp offset t.getABITypeAlignment

mutual

def getTypeAllocSize : Shape → ℕ
  | .scalar bytes align => alignUp bytes align.bytes
  | .array n elem => n * getTypeAllocSize elem
  | .struct packed fields =>
      alignUp (fieldsEnd packed 0 fields) (Shape.struct packed fields).getABITypeAlignment

def fieldsEnd (packed : Bool) (offset : ℕ) : List Shape → ℕ
  | [] => offset
  | t :: ts => fieldsEnd packed (fieldStart packed offset t + getTypeAllocSize t) ts

end

/-- The offset of the field `k` under the data layout, for fields behind `offset`. -/
def fieldOffset (packed : Bool) (offset : ℕ) : List Shape → ℕ → ℕ
  | [], _ => offset
  | t :: _, 0 => fieldStart packed offset t
  | t :: ts, k + 1 => fieldOffset packed (fieldStart packed offset t + t.getTypeAllocSize) ts k

/-- The bytes that a layout by natural alignment skips before the field `k`. -/
def paddingBefore (offset : ℕ) : List Shape → ℕ → ℕ
  | [], _ => 0
  | t :: _, 0 => fieldStart false offset t - offset
  | t :: ts, k + 1 =>
      fieldStart false offset t - offset +
        paddingBefore (fieldStart false offset t + t.getTypeAllocSize) ts k

/-- The loop over the fields before the indexed one. -/
def gepFieldLoop (size : ℕ) : List Shape → ℕ → ℕ
  | t :: t' :: ts, f + 1 =>
      gepFieldLoop (alignOffset ((size + t.getTypeAllocSize) % 2 ^ 32) t'.getABITypeAlignment)
        (t' :: ts) f
  | _, _ => size

/-- The offset that `printGepInstruction` adds for a field. -/
def gepFieldOffset (fields : List Shape) (fieldIndex : ℕ) : ℕ := gepFieldLoop 0 fields fieldIndex

/-! ## The loop computes natural offsets modulo `2 ^ 32` -/

mutual

theorem getABITypeAlignment_dvd : ∀ t : Shape, t.getABITypeAlignment ∣ 2 ^ 32
  | .scalar _ align => align.bytes_dvd
  | .array _ elem => getABITypeAlignment_dvd elem
  | .struct true _ => one_dvd _
  | .struct false fields => fieldsAlignment_dvd fields

theorem fieldsAlignment_dvd : ∀ ts : List Shape, fieldsAlignment ts ∣ 2 ^ 32
  | [] => one_dvd _
  | t :: ts => by
      rw [fieldsAlignment]
      rcases max_choice t.getABITypeAlignment (fieldsAlignment ts) with h | h <;> rw [h]
      · exact getABITypeAlignment_dvd t
      · exact fieldsAlignment_dvd ts

end

/-- One turn of the loop, on a size that has already been reduced. -/
theorem alignOffset_reduced (size bytes : ℕ) (t : Shape) :
    alignOffset ((size % 2 ^ 32 + bytes) % 2 ^ 32) t.getABITypeAlignment =
      alignUp (size + bytes) t.getABITypeAlignment % 2 ^ 32 := by
  rw [Nat.mod_add_mod]
  exact alignUp_mod_mod t.getABITypeAlignment_dvd (size + bytes)

theorem gepFieldLoop_eq {t : Shape} {ts : List Shape} {k : ℕ} (hk : k < (t :: ts).length)
    (offset : ℕ) :
    gepFieldLoop (fieldStart false offset t % 2 ^ 32) (t :: ts) k =
      fieldOffset false offset (t :: ts) k % 2 ^ 32 := by
  induction k generalizing offset t ts with
  | zero => cases ts <;> rfl
  | succ k ih =>
      cases ts with
      | nil => simp at hk
      | cons t' ts =>
          rw [gepFieldLoop, alignOffset_reduced, fieldOffset]
          exact ih (by simpa using hk) _

theorem gepFieldOffset_eq {fields : List Shape} {k : ℕ} (hk : k < fields.length) :
    gepFieldOffset fields k = fieldOffset false 0 fields k % 2 ^ 32 := by
  cases fields with
  | nil => simp at hk
  | cons t ts =>
      rw [← gepFieldLoop_eq hk, fieldStart, if_neg Bool.false_ne_true, alignUp_zero]
      rfl

theorem le_fieldStart (packed : Bool) (offset : ℕ) (t : Shape) :
    offset ≤ fieldStart packed offset t := by
  unfold fieldStart
  split
  · exact le_rfl
  · exact le_alignUp _ _

/-- A packed layout is the natural one without its padding. -/
theorem fieldOffset_eq_add_padding (packedOffset padding : ℕ) (ts : List Shape) (k : ℕ) :
    fieldOffset false (packedOffset + padding) ts k =
      fieldOffset true packedOffset ts k +
        (padding + paddingBefore (packedOffset + padding) ts k) := by
  induction ts generalizing packedOffset padding k with
  | nil => simp [fieldOffset, paddingBefore]
  | cons t ts ih =>
      have hle := le_fieldStart false (packedOffset + padding) t
      have hpacked : fieldStart true packedOffset t = packedOffset := rfl
      cases k with
      | zero =>
          simp only [fieldOffset, paddingBefore, hpacked]
          omega
      | succ k =>
          have hnext : fieldStart false (packedOffset + padding) t + t.getTypeAllocSize =
              packedOffset + t.getTypeAllocSize +
                (fieldStart false (packedOffset + padding) t - packedOffset) := by omega
          simp only [fieldOffset, paddingBefore, hpacked]
          rw [hnext, ih]
          omega

theorem getABITypeAlignment_pos (t : Shape) : 0 < t.getABITypeAlignment :=
  Nat.pos_of_dvd_of_pos t.getABITypeAlignment_dvd (by decide)

/-- There is no padding exactly if every field up to the indexed one happens to stand at a
multiple of its alignment when the fields are contiguous. -/
theorem paddingBefore_eq_zero_iff (offset : ℕ) {ts : List Shape} {k : ℕ} (hk : k < ts.length) :
    paddingBefore offset ts k = 0 ↔
      ∀ j ≤ k, ∀ t ∈ ts[j]?, t.getABITypeAlignment ∣ fieldOffset true offset ts j := by
  induction ts generalizing offset k with
  | nil => simp at hk
  | cons t ts ih =>
      have hle := le_fieldStart false offset t
      have hstart : fieldStart false offset t - offset = 0 ↔ t.getABITypeAlignment ∣ offset := by
        rw [← alignUp_eq_self_iff t.getABITypeAlignment_pos]
        change alignUp offset t.getABITypeAlignment - offset = 0 ↔ _
        change offset ≤ alignUp offset t.getABITypeAlignment at hle
        omega
      cases k with
      | zero => simpa [paddingBefore, fieldOffset, fieldStart] using hstart
      | succ k =>
          rw [paddingBefore, Nat.add_eq_zero_iff, hstart]
          constructor
          · rintro ⟨hdvd, hrest⟩ j hj t' ht'
            have hsame : fieldStart false offset t = offset := by
              have := hstart.mpr hdvd
              omega
            rw [hsame, ih _ (by simpa using hk)] at hrest
            cases j with
            | zero =>
                obtain rfl : t = t' := by simpa using ht'
                exact hdvd
            | succ j => exact hrest j (by omega) t' (by simpa using ht')
          · intro h
            have hdvd : t.getABITypeAlignment ∣ offset := h 0 (by omega) t rfl
            have hsame : fieldStart false offset t = offset := by
              have := hstart.mpr hdvd
              omega
            rw [hsame, ih _ (by simpa using hk)]
            exact ⟨hdvd, fun j hj t' ht' => h (j + 1) (by omega) t' (by simpa using ht')⟩

/-- The offset of the loop is that of the layout exactly if it fits an `unsigned` and the
natural alignment, for a packed struct, inserts a multiple of `2 ^ 32` bytes. -/
theorem gepFieldOffset_eq_iff (packed : Bool) {fields : List Shape} {k : ℕ}
    (hk : k < fields.length) :
    gepFieldOffset fields k = fieldOffset packed 0 fields k ↔
      fieldOffset packed 0 fields k < 2 ^ 32 ∧
        (packed = true → 2 ^ 32 ∣ paddingBefore 0 fields k) := by
  rw [gepFieldOffset_eq hk]
  cases packed with
  | false =>
      simp only [Bool.false_eq_true, false_implies, and_true]
      exact Nat.mod_eq_iff_lt (by decide)
  | true =>
      have hsum : fieldOffset false 0 fields k =
          fieldOffset true 0 fields k + paddingBefore 0 fields k := by
        simpa using fieldOffset_eq_add_padding 0 0 fields k
      simp only [hsum, true_implies]
      constructor
      · intro h
        have hlt : fieldOffset true 0 fields k < 2 ^ 32 := h ▸ Nat.mod_lt _ (by decide)
        have hmod := Nat.mod_add_div (fieldOffset true 0 fields k + paddingBefore 0 fields k)
          (2 ^ 32)
        refine ⟨hlt, (fieldOffset true 0 fields k + paddingBefore 0 fields k) / 2 ^ 32, ?_⟩
        omega
      · rintro ⟨hlt, q, hq⟩
        rw [hq, Nat.add_mul_mod_self_left, Nat.mod_eq_of_lt hlt]

/-- `<{ i16, i8, i8, i32 }>`: every field of the packed struct is aligned anyway. -/
theorem gepFieldOffset_eq_of_aligned :
    gepFieldOffset [.scalar 2 ⟨1, by decide⟩, .scalar 1 ⟨0, by decide⟩, .scalar 1 ⟨0, by decide⟩,
        .scalar 4 ⟨2, by decide⟩] 3 =
      fieldOffset true 0 [.scalar 2 ⟨1, by decide⟩, .scalar 1 ⟨0, by decide⟩,
        .scalar 1 ⟨0, by decide⟩, .scalar 4 ⟨2, by decide⟩] 3 :=
  (gepFieldOffset_eq_iff true (by decide)).mpr ⟨by decide, fun _ => by decide⟩

/-- `<{ i8, i32 }>`: the loop adds 4 for the second field, which stands at 1. -/
theorem gepFieldOffset_packed :
    ¬ ∀ (packed : Bool) (fields : List Shape) (k : ℕ), k < fields.length →
      gepFieldOffset fields k = fieldOffset packed 0 fields k := by
  intro h
  have := h true [.scalar 1 ⟨0, by decide⟩, .scalar 4 ⟨2, by decide⟩] 1 (by decide)
  revert this
  decide

end Shape

/-! ## The types of the writer -/

/-- The alignments of the installed layout are powers of two. -/
def IntWidth.alignLog (w : IntWidth) : ℕ :=
  if w.bits ≤ 8 then 0
  else if w.bits ≤ 16 then 1
  else if w.bits ≤ 32 then 2
  else 3

theorem IntWidth.alignLog_lt (w : IntWidth) : w.alignLog < 32 := by
  unfold IntWidth.alignLog
  split_ifs <;> decide

def IntWidth.align (w : IntWidth) : AbiAlign := ⟨w.alignLog, w.alignLog_lt⟩

mutual

/-- A type of the writer under the installed layout. -/
def Ty.shape : Ty → Shape
  | .int w => .scalar ((w.bits + 7) / 8) w.align
  | .float => .scalar 4 ⟨2, by decide⟩
  | .double => .scalar 8 ⟨3, by decide⟩
  | .pointer => .scalar 4 ⟨2, by decide⟩
  | .array n elem => .array n elem.shape
  | .struct fields => .struct false (shapes fields)

def shapes : List Ty → List Shape
  | [] => []
  | t :: ts => t.shape :: shapes ts

end

theorem IntWidth.bytes_align (w : IntWidth) : w.align.bytes = jvm.intAlign w.bits := by
  change 2 ^ w.alignLog = jvm.intAlign w.bits
  unfold IntWidth.alignLog DataLayout.intAlign jvm
  split_ifs <;> first | rfl | omega

mutual

theorem getABITypeAlignment_shape : ∀ t : Ty,
    t.shape.getABITypeAlignment = jvm.getABITypeAlignment t
  | .int w => w.bytes_align
  | .float => rfl
  | .double => rfl
  | .pointer => rfl
  | .array _ elem => getABITypeAlignment_shape elem
  | .struct fields => fieldsAlignment_shapes fields

theorem fieldsAlignment_shapes : ∀ ts : List Ty,
    Shape.fieldsAlignment (shapes ts) = jvm.fieldsAlignment ts
  | [] => rfl
  | t :: ts => congrArg₂ max (getABITypeAlignment_shape t) (fieldsAlignment_shapes ts)

end

theorem fieldStart_shape (offset : ℕ) (t : Ty) :
    Shape.fieldStart false offset t.shape = alignUp offset (jvm.getABITypeAlignment t) := by
  rw [← getABITypeAlignment_shape]
  rfl

mutual

theorem getTypeAllocSize_shape : ∀ t : Ty, t.shape.getTypeAllocSize = jvm.getTypeAllocSize t
  | .int w => congrArg (alignUp _) w.bytes_align
  | .float => rfl
  | .double => rfl
  | .pointer => rfl
  | .array n elem => congrArg (n * ·) (getTypeAllocSize_shape elem)
  | .struct fields =>
      congrArg₂ alignUp (fieldsEnd_shapes fields 0) (fieldsAlignment_shapes fields)

theorem fieldsEnd_shapes : ∀ (ts : List Ty) (offset : ℕ),
    Shape.fieldsEnd false offset (shapes ts) = jvm.fieldsEnd offset ts
  | [], _ => rfl
  | t :: ts, offset => by
      rw [shapes, Shape.fieldsEnd, fieldStart_shape, getTypeAllocSize_shape t,
        fieldsEnd_shapes ts, DataLayout.fieldsEnd]

end

/-- The offset printed for a struct index is the one of the loop over its shapes. -/
theorem gepFieldOffset_shapes (fields : List Ty) (k : ℕ) :
    Shape.gepFieldOffset (shapes fields) k = jvm.gepFieldOffset fields k := by
  have hloop : ∀ (ts : List Ty) (size k : ℕ),
      Shape.gepFieldLoop size (shapes ts) k = jvm.gepFieldLoop size ts k := by
    intro ts
    induction ts with
    | nil => simp [shapes, Shape.gepFieldLoop, DataLayout.gepFieldLoop]
    | cons t ts ih =>
        intro size k
        rcases ts with - | ⟨t', ts⟩
        · simp [shapes, Shape.gepFieldLoop, DataLayout.gepFieldLoop]
        · rcases k with - | k
          · rfl
          · rw [DataLayout.gepFieldLoop, ← ih, ← getTypeAllocSize_shape,
              ← getABITypeAlignment_shape]
            rfl
  exact hloop fields 0 k

end Llxvm.Backend
