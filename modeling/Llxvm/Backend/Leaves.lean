import Llxvm.Backend.Llvm
import Llxvm.Backend.StaticConstant
import Llxvm.Backend.StructOffsets
import Llxvm.Lib.Placement

/-!
# Leaves of constants

The scalars that a constant is made of, where `printGepInstruction` looks for them, and the blocks
in which `printStaticConstant` stores them: scalars, strings and null constants.
-/

namespace Llxvm.Backend

open Llxvm.Jvm Align DataLayout Placement

/-! ## Types -/

namespace Ty

/-- The type that an index steps into. -/
def part : Ty → ℕ → Option Ty
  | .struct fields, k => fields[k]?
  | .array n elem, k => if k < n then some elem else none
  | _, _ => none

/-- The types of all parts. -/
def parts : Ty → List Ty
  | .struct fields => fields
  | .array n elem => List.replicate n elem
  | _ => []

/-- The offsets of all parts. -/
def offsets : Ty → List ℕ
  | .struct fields => jvm.fieldOffsets 0 fields
  | .array n elem => (List.range n).map (· * jvm.getTypeAllocSize elem)
  | _ => []

mutual

/-- The scalars are those that the JVM has. -/
def IsPlain : Ty → Prop
  | .array _ elem => elem.IsPlain
  | .struct fields => arePlain fields
  | .int w => (Ty.int w).prim.isSome
  | _ => True

def arePlain : List Ty → Prop
  | [] => True
  | t :: ts => t.IsPlain ∧ arePlain ts

end

end Ty

/-! ## Constants -/

namespace Constant

/-- The null constant of a type. -/
def zeroOf : Ty → Constant
  | .int w => .int w 0#w.bits
  | .float => .float 0#32
  | .double => .double 0#64
  | .pointer => .null
  | ty => .aggregateZero ty

/-- The element at an index. -/
def part : Constant → ℕ → Option Constant
  | .aggregateZero ty, k => (ty.part k).map zeroOf
  | .undef ty, k => (ty.part k).map .undef
  | .string bytes, k => bytes[k]?.map (.int .w8)
  | .dataArray _ elems, k => elems[k]?
  | .aggregate _ operands, k => operands[k]?
  | _, _ => none

def atPath (c : Constant) : List ℕ → Option Constant
  | [] => some c
  | k :: path => (c.part k).bind (Constant.atPath · path)

mutual

/-- The initialiser of a global variable: its elements have the types of the fields, and its
constant expressions are scalars. -/
def IsInitializer : Constant → Prop
  | .aggregateZero ty => ty.IsPlain
  | .undef ty => ty.IsPlain
  | .string _ => True
  | .dataArray elem elems => areInitializers (Ty.array elems.length elem).parts elems
  | .aggregate ty operands => ty.prim = none ∧ areInitializers ty.parts operands
  | c => c.type.prim.isSome

def areInitializers : List Ty → List Constant → Prop
  | [], [] => True
  | t :: ts, c :: cs => c.type = t ∧ c.IsInitializer ∧ areInitializers ts cs
  | _, _ => False

end

end Constant

/-! ## Values and blocks -/

section values

/- What LLVM says the constant expressions are. -/
variable (env : Env) (exprValue : Constant → Option LlvmVal)

end values

section blocks

variable (value : Constant → Option (List (BitVec 8)))

/-- Bytes without an alignment; none if there are none. -/
def byteBlock (offset : ℕ) (bytes : List (BitVec 8)) : List (Block (BitVec 8)) :=
  if bytes = [] then [] else [⟨offset, 1, bytes.length, some bytes⟩]

def scalarBlock (offset : ℕ) (c : Constant) : List (Block (BitVec 8)) :=
  match c.type.prim with
  | some t => [⟨offset, t.size, t.size, value c⟩]
  | none => []

mutual

/-- The blocks of a constant whose first byte is at the offset. -/
def Constant.blocks (offset : ℕ) (c : Constant) : List (Block (BitVec 8)) :=
  if c.isNullValue then
    byteBlock offset (List.replicate (jvm.getTypeAllocSize c.type) 0#8)
  else
    match c with
    | .string bytes => byteBlock offset bytes
    | .dataArray elem elems =>
        allBlocks ((Ty.array elems.length elem).offsets.map (offset + ·)) elems
    | .aggregate ty operands => allBlocks (ty.offsets.map (offset + ·)) operands
    | c => scalarBlock value offset c

def allBlocks : List ℕ → List Constant → List (Block (BitVec 8))
  | offset :: offsets, c :: cs => c.blocks offset ++ allBlocks offsets cs
  | _, _ => []

end

end blocks

/-! ## Layout -/

/-- The fields are aligned and one behind the other, between `e` and `f`. -/
def LaidOut (e f : ℕ) : List Ty → List ℕ → Prop
  | [], [] => e ≤ f
  | t :: ts, o :: os =>
      e ≤ o ∧ jvm.getABITypeAlignment t ∣ o ∧ LaidOut (o + jvm.getTypeAllocSize t) f ts os
  | _, _ => False

mutual

theorem exists_alignment : ∀ t : Ty, ∃ k ≤ 3, jvm.getABITypeAlignment t = 2 ^ k
  | .int w => by
      rw [getABITypeAlignment, ← w.bytes_align]
      refine ⟨w.alignLog, ?_, rfl⟩
      unfold IntWidth.alignLog
      split_ifs <;> decide
  | .float => ⟨2, by decide, rfl⟩
  | .double => ⟨3, by decide, rfl⟩
  | .pointer => ⟨2, by decide, rfl⟩
  | .array _ elem => exists_alignment elem
  | .struct fields => exists_fieldsAlignment fields

theorem exists_fieldsAlignment : ∀ ts : List Ty, ∃ k ≤ 3, jvm.fieldsAlignment ts = 2 ^ k
  | [] => ⟨0, by decide, rfl⟩
  | t :: ts => by
      rw [fieldsAlignment]
      rcases max_choice (jvm.getABITypeAlignment t) (jvm.fieldsAlignment ts) with h | h <;> rw [h]
      · exact exists_alignment t
      · exact exists_fieldsAlignment ts

end

theorem alignment_dvd_fields {ts : List Ty} {t : Ty} (h : t ∈ ts) :
    jvm.getABITypeAlignment t ∣ jvm.fieldsAlignment ts := by
  have hle : jvm.getABITypeAlignment t ≤ jvm.fieldsAlignment ts := by
    induction ts with
    | nil => cases h
    | cons t' ts ih =>
        rw [fieldsAlignment]
        rcases List.mem_cons.mp h with rfl | h
        · exact le_max_left _ _
        · exact (ih h).trans (le_max_right _ _)
  obtain ⟨k, -, hk⟩ := exists_alignment t
  obtain ⟨l, -, hl⟩ := exists_fieldsAlignment ts
  rw [hk, hl] at hle ⊢
  exact Nat.pow_dvd_pow 2 ((Nat.pow_le_pow_iff_right (by decide)).mp hle)

theorem alignment_dvd_size : ∀ t : Ty, jvm.getABITypeAlignment t ∣ jvm.getTypeAllocSize t
  | .int w => dvd_alignUp _ (jvm.intAlign_pos w.bits)
  | .float => by decide
  | .double => by decide
  | .pointer => by decide
  | .array n elem => (alignment_dvd_size elem).mul_left n
  | .struct fields => dvd_alignUp _ (jvm.fieldsAlignment_pos fields)

theorem laidOut_fields (e : ℕ) (ts : List Ty) :
    LaidOut e (jvm.fieldsEnd e ts) ts (jvm.fieldOffsets e ts) := by
  induction ts generalizing e with
  | nil => exact le_rfl
  | cons t ts ih =>
      exact ⟨le_alignUp _ _, dvd_alignUp _ (jvm.getABITypeAlignment_pos t), ih _⟩

theorem laidOut_elements (t : Ty) (i n : ℕ) :
    LaidOut (i * jvm.getTypeAllocSize t) ((i + n) * jvm.getTypeAllocSize t) (List.replicate n t)
      ((List.range' i n).map (· * jvm.getTypeAllocSize t)) := by
  induction n generalizing i with
  | zero => exact le_rfl
  | succ n ih =>
      refine ⟨le_rfl, (alignment_dvd_size t).mul_left i, ?_⟩
      have hrest := ih (i + 1)
      rw [Nat.add_one_mul, Nat.add_assoc, Nat.add_comm 1 n] at hrest
      exact hrest

theorem LaidOut.add {e f o : ℕ} {ts : List Ty} {os : List ℕ} (h : LaidOut e f ts os)
    (ho : ∀ t ∈ ts, jvm.getABITypeAlignment t ∣ o) :
    LaidOut (o + e) (o + f) ts (os.map (o + ·)) := by
  induction ts generalizing e os with
  | nil =>
      cases os with
      | nil => exact Nat.add_le_add_left h o
      | cons _ _ => cases h
  | cons t ts ih =>
      cases os with
      | nil => cases h
      | cons x os =>
          obtain ⟨ht, hts⟩ := List.forall_mem_cons.mp ho
          refine ⟨Nat.add_le_add_left h.1 o, ht.add h.2.1, ?_⟩
          rw [Nat.add_assoc]
          exact ih h.2.2 hts

theorem LaidOut.le {e f : ℕ} {ts : List Ty} {os : List ℕ} (h : LaidOut e f ts os) : e ≤ f := by
  induction ts generalizing e os with
  | nil =>
      cases os with
      | nil => exact h
      | cons _ _ => cases h
  | cons t ts ih =>
      cases os with
      | nil => cases h
      | cons x os =>
          have hrest := ih h.2.2
          have hle := h.1
          omega

theorem LaidOut.mono {e f f' : ℕ} {ts : List Ty} {os : List ℕ} (h : LaidOut e f ts os)
    (hf : f ≤ f') : LaidOut e f' ts os := by
  induction ts generalizing e os with
  | nil =>
      cases os with
      | nil => exact Nat.le_trans h hf
      | cons _ _ => cases h
  | cons t ts ih =>
      cases os with
      | nil => cases h
      | cons x os => exact ⟨h.1, h.2.1, ih h.2.2⟩

namespace Ty

variable {ty t : Ty} {k : ℕ}

theorem part_eq (ty : Ty) (k : ℕ) : ty.part k = ty.parts[k]? := by
  cases ty with
  | array n elem => simp [part, parts, List.getElem?_replicate]
  | _ => rfl

theorem laidOut (ty : Ty) :
    LaidOut 0 (jvm.getTypeAllocSize ty) ty.parts ty.offsets := by
  cases ty with
  | struct fields => exact (laidOut_fields 0 fields).mono (le_alignUp _ _)
  | array n elem =>
      have h := laidOut_elements elem 0 n
      rw [Nat.zero_mul, Nat.zero_add, ← List.range_eq_range'] at h
      exact h
  | _ => exact Nat.zero_le _

theorem alignment_dvd_parts (h : t ∈ ty.parts) :
    jvm.getABITypeAlignment t ∣ jvm.getABITypeAlignment ty := by
  cases ty with
  | struct fields => exact alignment_dvd_fields h
  | array n elem =>
      rw [List.eq_of_mem_replicate h]
      exact dvd_rfl
  | _ => cases h

theorem IsPlain.part (hty : ty.IsPlain) (h : ty.part k = some t) : t.IsPlain := by
  have hall : ∀ ts : List Ty, arePlain ts → ∀ t ∈ ts, t.IsPlain := by
    intro ts
    induction ts with
    | nil => simp
    | cons t ts ih => exact fun h => List.forall_mem_cons.mpr ⟨h.1, ih h.2⟩
  cases ty with
  | struct fields => exact hall fields hty t (List.mem_of_getElem? h)
  | array n elem =>
      rw [Ty.part] at h
      split_ifs at h
      cases h
      exact hty
  | _ => cases h

end Ty

/-! ## Elements -/

namespace Constant

theorem type_zeroOf (ty : Ty) : (zeroOf ty).type = ty := by cases ty <;> rfl

theorem isInitializer_zeroOf {ty : Ty} (h : ty.IsPlain) : (zeroOf ty).IsInitializer := by
  cases ty with
  | int w =>
      rw [Ty.IsPlain] at h
      rw [zeroOf, IsInitializer]
      · exact h
      all_goals simp
  | _ => first | exact h | rfl

theorem areInitializers_get {ts : List Ty} {cs : List Constant} (h : areInitializers ts cs)
    {k : ℕ} {d : Constant} (hd : cs[k]? = some d) : ts[k]? = some d.type ∧ d.IsInitializer := by
  induction ts generalizing cs k with
  | nil =>
      cases cs with
      | nil => cases hd
      | cons c cs => exact absurd h (by simp [areInitializers])
  | cons t ts ih =>
      cases cs with
      | nil => cases hd
      | cons c cs =>
          rw [areInitializers] at h
          obtain ⟨hty, hc, hrest⟩ := h
          cases k with
          | zero =>
              cases hd
              exact ⟨congrArg some hty.symm, hc⟩
          | succ k => exact ih hrest hd

/-- An element of an initialiser is one, and of the type of the part. -/
theorem IsInitializer.part {c d : Constant} {k : ℕ} (hc : c.IsInitializer)
    (hd : c.part k = some d) : c.type.part k = some d.type ∧ d.IsInitializer := by
  cases c with
  | aggregateZero ty =>
      obtain ⟨t, ht, rfl⟩ := Option.map_eq_some_iff.mp hd
      rw [type_zeroOf]
      rw [IsInitializer] at hc
      exact ⟨ht, isInitializer_zeroOf (hc.part ht)⟩
  | undef ty =>
      obtain ⟨t, ht, rfl⟩ := Option.map_eq_some_iff.mp hd
      rw [IsInitializer] at hc
      exact ⟨ht, by rw [IsInitializer]; exact hc.part ht⟩
  | string bytes =>
      obtain ⟨b, hb, rfl⟩ := Option.map_eq_some_iff.mp hd
      have hk : k < bytes.length := (List.getElem?_eq_some_iff.mp hb).1
      exact ⟨by simp [type, Ty.part, hk], by simp [IsInitializer, type, Ty.prim]⟩
  | dataArray elem elems =>
      rw [IsInitializer] at hc
      rw [Ty.part_eq]
      exact areInitializers_get hc hd
  | aggregate ty operands =>
      rw [IsInitializer] at hc
      rw [Ty.part_eq]
      exact areInitializers_get hc.2 hd
  | _ => cases hd

end Constant

/-! ## Blocks -/

theorem getABITypeAlignment_of_prim {ty : Ty} {t : Runtime.PrimType} (h : ty.prim = some t) :
    jvm.getABITypeAlignment ty = t.size := by
  have hcases := Ty.prim_cases h
  simp only [List.mem_cons, List.not_mem_nil, or_false] at hcases
  rcases hcases with rfl | rfl | rfl | rfl | rfl | rfl | rfl | rfl <;> cases h <;> rfl

section blocks

variable {env : Env} {exprValue : Constant → Option LlvmVal}
  {value : Constant → Option (List (BitVec 8))}

theorem between_byteBlock (o : ℕ) (bytes : List (BitVec 8)) :
    Between o (o + bytes.length) (byteBlock o bytes) := by
  unfold byteBlock
  split_ifs with h
  · exact Nat.le_add_right o _
  · exact ⟨le_rfl, Nat.one_pos, one_dvd o, le_rfl⟩

theorem between_scalarBlock {o : ℕ} {c : Constant} (ho : jvm.getABITypeAlignment c.type ∣ o) :
    Between o (o + jvm.getTypeAllocSize c.type) (scalarBlock value o c) := by
  unfold scalarBlock
  cases ht : c.type.prim with
  | none => exact Nat.le_add_right o _
  | some t =>
      rw [getABITypeAlignment_of_prim ht] at ho
      rw [getTypeAllocSize_of_prim ht]
      exact ⟨le_rfl, t.size_pos, ho, le_rfl⟩

theorem between_nullBlock {o : ℕ} {c : Constant} (h : c.isNullValue) :
    Between o (o + jvm.getTypeAllocSize c.type) (c.blocks value o) := by
  have hzeros := between_byteBlock o (List.replicate (jvm.getTypeAllocSize c.type) 0#8)
  rw [List.length_replicate] at hzeros
  unfold Constant.blocks
  rw [if_pos h]
  exact hzeros

/-- The parts of a type at an offset of its alignment. -/
theorem laidOut_parts {ty : Ty} {o : ℕ} (ho : jvm.getABITypeAlignment ty ∣ o) :
    LaidOut o (o + jvm.getTypeAllocSize ty) ty.parts (ty.offsets.map (o + ·)) :=
  ty.laidOut.add fun _ ht => (Ty.alignment_dvd_parts ht).trans ho

mutual

/-- The blocks of a constant are aligned and in its place. -/
theorem between_blocks {o : ℕ} (c : Constant) (hc : c.IsInitializer)
    (ho : jvm.getABITypeAlignment c.type ∣ o) :
    Between o (o + jvm.getTypeAllocSize c.type) (c.blocks value o) := by
  cases hnull : c.isNullValue with
  | true => exact between_nullBlock hnull
  | false =>
      unfold Constant.blocks
      rw [if_neg (by rw [hnull]; exact Bool.false_ne_true)]
      cases c with
      | string bytes =>
          have hsize : jvm.getTypeAllocSize (Constant.string bytes).type = bytes.length := by
            simp [Constant.type, getTypeAllocSize, alignUp, intAlign, jvm]
          rw [hsize]
          exact between_byteBlock o bytes
      | dataArray elem elems =>
          rw [Constant.IsInitializer] at hc
          exact between_allBlocks elems hc (laidOut_parts ho)
      | aggregate ty operands =>
          rw [Constant.IsInitializer] at hc
          exact between_allBlocks operands hc.2 (laidOut_parts ho)
      | _ => exact between_scalarBlock ho

theorem between_allBlocks {e f : ℕ} {ts : List Ty} {os : List ℕ} (cs : List Constant)
    (hcs : Constant.areInitializers ts cs) (h : LaidOut e f ts os) :
    Between e f (allBlocks value os cs) := by
  cases cs with
  | nil =>
      have hle := h.le
      cases os <;> exact hle
  | cons c cs =>
      rcases ts with - | ⟨t, ts⟩
      · simp [Constant.areInitializers] at hcs
      rcases os with - | ⟨o, os⟩
      · cases h
      rw [Constant.areInitializers] at hcs
      obtain ⟨rfl, hc, hcs⟩ := hcs
      have hhead := between_blocks c hc h.2.1
      exact (hhead.mono h.1 le_rfl).append (between_allBlocks cs hcs h.2.2)

end

theorem regular_byteBlock (o : ℕ) (bytes : List (BitVec 8)) :
    ∀ b ∈ byteBlock o bytes, 0 < b.size ∧ b.align ∣ 8 := by
  unfold byteBlock
  split_ifs with h
  · simp
  · simpa using List.length_pos_iff.mpr h

theorem regular_scalarBlock (o : ℕ) (c : Constant) :
    ∀ b ∈ scalarBlock value o c, 0 < b.size ∧ b.align ∣ 8 := by
  unfold scalarBlock
  cases c.type.prim with
  | none => simp
  | some t => cases t <;> simp [Runtime.PrimType.size]

mutual

/-- No block is empty. -/
theorem regular_blocks (o : ℕ) (c : Constant) :
    ∀ b ∈ c.blocks value o, 0 < b.size ∧ b.align ∣ 8 := by
  unfold Constant.blocks
  split_ifs with hnull
  · exact regular_byteBlock _ _
  · cases c with
    | string bytes => exact regular_byteBlock _ _
    | dataArray elem elems => exact regular_allBlocks _ elems
    | aggregate ty operands => exact regular_allBlocks _ operands
    | _ => exact regular_scalarBlock _ _

theorem regular_allBlocks (os : List ℕ) (cs : List Constant) :
    ∀ b ∈ allBlocks value os cs, 0 < b.size ∧ b.align ∣ 8 := by
  cases cs with
  | nil => cases os <;> simp [allBlocks]
  | cons c cs =>
      cases os with
      | nil => simp [allBlocks]
      | cons o os =>
          rw [allBlocks]
          exact List.forall_mem_append.mpr ⟨regular_blocks o c, regular_allBlocks os cs⟩

end

theorem shape_scalarBlock (value value' : Constant → Option (List (BitVec 8))) (o : ℕ)
    (c : Constant) :
    (scalarBlock value o c).map Block.shape = (scalarBlock value' o c).map Block.shape := by
  unfold scalarBlock
  cases c.type.prim <;> rfl

mutual

/-- The places of the blocks do not depend on the bytes. -/
theorem shape_blocks (value value' : Constant → Option (List (BitVec 8))) (o : ℕ) (c : Constant) :
    (c.blocks value o).map Block.shape = (c.blocks value' o).map Block.shape := by
  unfold Constant.blocks
  split_ifs with hnull
  · rfl
  · cases c with
    | string bytes => rfl
    | dataArray elem elems => exact shape_allBlocks value value' _ elems
    | aggregate ty operands => exact shape_allBlocks value value' _ operands
    | _ => exact shape_scalarBlock value value' o _

theorem shape_allBlocks (value value' : Constant → Option (List (BitVec 8))) (os : List ℕ)
    (cs : List Constant) :
    (allBlocks value os cs).map Block.shape = (allBlocks value' os cs).map Block.shape := by
  cases cs with
  | nil => cases os <;> simp [allBlocks]
  | cons c cs =>
      cases os with
      | nil => simp [allBlocks]
      | cons o os =>
          rw [allBlocks, allBlocks, List.map_append, List.map_append,
            shape_blocks value value' o c, shape_allBlocks value value' os cs]

end

/-! ## Leaves in blocks -/

theorem bytes_ne_nil (x : LlvmVal) : x.bytes ≠ [] := by
  rw [← List.length_pos_iff]
  cases x with
  | int w x =>
      have hpos := w.pos
      simp only [LlvmVal.bytes, LittleEndian.length_leBytes]
      omega
  | _ => simp [LlvmVal.bytes]

section assignment

variable {c leaf : Constant} {path : List ℕ} {bytes : List (BitVec 8)}

end assignment

end blocks

end Llxvm.Backend
