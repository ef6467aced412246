import Llxvm.Jreflect.ClassInfo
import Llxvm.Jreflect.HostFloat

/-!
# The items of the constant pool by their indices

`parse_const_pool` stores the item of an entry at the index of the entry, unless the entry takes
two indices, and decodes it, unless it is a float or has a zero byte.
-/

namespace Llxvm.Jreflect

open StreamReader

/-! ## Entries and items -/

/-- The value of an entry; a string has all its bytes. -/
def Constant.decoded : Constant → ItemValue
  | utf8 bytes _ => .string (text bytes)
  | c => c.value

/-- What `item->value` is set to; a float has been through `read_host_float`. -/
def ItemValue.stored : ItemValue → Option ItemValue
  | float bits => (hostFloat bits).map float
  | v => some v

/-- The items are as many as the pool has indices, and each entry is the item at its index. -/
def StoresPool (pool : List Constant) : Prop :=
  ∀ rest u, ∃ items size s, parseConstPool (BitVec.ofNat 16 (poolSlots pool + 1))
      ⟨pool.flatMap Constant.bytes ++ rest, u⟩ = some (some (items, size), s) ∧
    items.length = poolSlots pool + 1 ∧ ∀ i k, entryAt pool i = some k →
      ∃ item, items[i]? = some item ∧ item.tag = k.poolTag ∧ item.value.stored = some k.decoded

/-- The entry has one index, a string has no zero byte, and a float is zero. -/
def Constant.storable : Constant → Bool
  | utf8 bytes _ => !bytes.contains 0#8
  | float bits => bits == 0#32
  | long _ _ => false
  | double _ _ => false
  | _ => true

/-! ## One entry -/

theorem text_takeWhile_iff (bytes : List Byte) :
    text (bytes.takeWhile (· ≠ 0#8)) = text bytes ↔ 0#8 ∉ bytes := by
  constructor
  · intro h hmem
    have hlen := congrArg (fun s : String => s.toList.length) h
    simp only [text, String.toList_ofList, List.length_map] at hlen
    have hall := List.takeWhile_eq_self_iff.mp
      ((List.takeWhile_prefix _).eq_of_length hlen) _ hmem
    simp at hall
  · intro h
    exact congrArg text (List.takeWhile_eq_self_iff.mpr fun b hb =>
      decide_eq_true fun heq : b = 0#8 => h (heq ▸ hb))

/-- The first item of an entry is as it should be. -/
theorem Constant.stored_iff (k : Constant) :
    (∃ item, k.items[0]? = some item ∧ item.tag = k.poolTag ∧ item.value.stored = some k.decoded) ↔
      k.storable := by
  cases k with
  | utf8 bytes h =>
      simp only [items, poolTag, ConstantPoolTag.isWide, Bool.false_eq_true, if_false,
        List.getElem?_cons_zero, Option.some.injEq, exists_eq_left', value, ItemValue.stored,
        decoded, true_and, ItemValue.string.injEq, storable, text_takeWhile_iff]
      simp
  | float bits =>
      simp only [items, poolTag, ConstantPoolTag.isWide, Bool.false_eq_true, if_false,
        List.getElem?_cons_zero, Option.some.injEq, exists_eq_left', value, ItemValue.stored,
        decoded, true_and, storable, beq_iff_eq, ← hostFloat_eq_self_iff]
      simp
  | long high low => simp [items, poolTag, ConstantPoolTag.isWide, storable, Item.empty]
  | double high low => simp [items, poolTag, ConstantPoolTag.isWide, storable, Item.empty]
  | _ => exact iff_of_true ⟨_, rfl, rfl, rfl⟩ rfl

/-! ## The pool -/

theorem exists_entryAt {pool : List Constant} {k : Constant} (hk : k ∈ pool) :
    ∃ i, entryAt pool i = some k := by
  induction pool with
  | nil => cases hk
  | cons d pool ih =>
      rcases List.mem_cons.mp hk with rfl | hk
      · exact ⟨1, by simp [entryAt]⟩
      · obtain ⟨i, hi⟩ := ih hk
        obtain ⟨hpos, -⟩ := getElem?_poolItems hi
        have hslots := d.slots_pos
        refine ⟨i + d.slots, ?_⟩
        rw [entryAt, if_neg (by omega), if_pos (by omega), Nat.add_sub_cancel]
        exact hi

/-- The pool is stored as it should be exactly when each of its entries is. -/
theorem storesPool_iff {pool : List Constant} (hmt : ∀ k ∈ pool, k.isMethodType = false)
    (hlt : poolSlots pool + 1 < 2 ^ 16) : StoresPool pool ↔ ∀ k ∈ pool, k.storable := by
  have hitem {i : ℕ} {k : Constant} (hk : entryAt pool i = some k) :
      (Item.empty :: poolItems pool)[i]? = k.items[0]? := by
    obtain ⟨hpos, -, hitem⟩ := getElem?_poolItems hk
    rw [← hitem, List.getElem?_cons, if_neg (by omega)]
  constructor
  · intro h k hk
    obtain ⟨items, size, s, hparse, -, hall⟩ := h [] fun _ => 0#32
    rw [parseConstPool_pool hmt hlt] at hparse
    cases hparse
    obtain ⟨i, hi⟩ := exists_entryAt hk
    have hentry := hall i k hi
    rw [hitem hi] at hentry
    exact k.stored_iff.mp hentry
  · intro h rest u
    refine ⟨_, _, _, parseConstPool_pool hmt hlt rest u, ?_, fun i k hk => ?_⟩
    · rw [List.length_cons, length_poolItems]
    rw [hitem hk]
    exact k.stored_iff.mpr (h k (mem_of_entryAt hk))

theorem storesPool_string : StoresPool [.utf8 [65#8] (by decide), .string 1#16, .float 0#32] :=
  (storesPool_iff (by decide) (by decide)).mpr (by decide)

/-- The item of a long comes behind the one at its index, and a float loses its value. -/
theorem not_storesPool_long :
    ¬ StoresPool [.long 0#32 1#32] ∧ ¬ StoresPool [.float 0x3f800000#32] := by
  refine ⟨fun h => ?_, fun h => ?_⟩
  · obtain ⟨items, size, s, hparse, -, hall⟩ := h [] fun _ => 0#32
    obtain ⟨item, hitem, htag, -⟩ := hall 1 (.long 0#32 1#32) rfl
    rw [parseConstPool_pool (by decide) (by decide)] at hparse
    cases hparse
    cases hitem
    cases htag
  · obtain ⟨items, size, s, hparse, -, hall⟩ := h [] fun _ => 0#32
    obtain ⟨item, hitem, -, hvalue⟩ := hall 1 (.float 0x3f800000#32) rfl
    rw [parseConstPool_pool (by decide) (by decide)] at hparse
    cases hparse
    cases hitem
    simp only [Constant.value, ItemValue.stored, Constant.decoded, Option.map_eq_some_iff,
      ItemValue.float.injEq, exists_eq_right] at hvalue
    exact absurd (hostFloat_eq_self_iff.mp hvalue) (by decide)

end Llxvm.Jreflect
