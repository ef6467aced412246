import Mathlib.Data.List.Basic

/-!
# Unicode transformation formats

UTF-8 over bytes and UTF-16 over code units, with decoders that replace what is malformed,
so that every list has a decoding.
-/

namespace Llxvm.Utf

/-! ## UTF-8 -/

def utf8Char (c : Char) : List (BitVec 8) := (String.utf8EncodeChar c).map UInt8.toBitVec

def utf8 (cs : List Char) : List (BitVec 8) := cs.flatMap utf8Char

/-- The bytes are UTF-8. -/
def WellFormed (bs : List (BitVec 8)) : Prop := ∃ cs, bs = utf8 cs

@[simp] theorem utf8_nil : utf8 [] = [] := rfl

@[simp] theorem utf8_cons (c : Char) (cs : List Char) :
    utf8 (c :: cs) = utf8Char c ++ utf8 cs := rfl

theorem utf8_append (cs ds : List Char) : utf8 (cs ++ ds) = utf8 cs ++ utf8 ds := by
  simp [utf8]

/-- The byte of an ASCII character. -/
def ascii (c : Char) : BitVec 8 := BitVec.ofNat 8 c.toNat

theorem utf8Char_of_lt {c : Char} (h : c.toNat < 0x80) : utf8Char c = [ascii c] := by
  have hle : c.val.toNat ≤ 0x7f := by
    have : c.val.toNat = c.toNat := rfl
    omega
  simp only [utf8Char, String.utf8EncodeChar, if_pos hle]
  rfl

/-- The other characters take bytes above those of ASCII only. -/
theorem le_of_mem_utf8Char {c : Char} (h : 0x80 ≤ c.toNat) {b : BitVec 8} (hb : b ∈ utf8Char c) :
    0x80 ≤ b.toNat := by
  have hlt : ¬ c.val.toNat ≤ 0x7f := by
    have : c.val.toNat = c.toNat := rfl
    omega
  have hbyte : ∀ n : ℕ, 0x80 ≤ n → n < 0x100 → 0x80 ≤ (UInt8.ofNat n).toBitVec.toNat := by
    intro n hlo hhi
    have : (UInt8.ofNat n).toBitVec.toNat = n % 256 := rfl
    omega
  simp only [utf8Char, String.utf8EncodeChar, if_neg hlt] at hb
  split_ifs at hb <;> simp only [List.map_cons, List.map_nil, List.mem_cons, List.not_mem_nil,
    or_false] at hb
  · rcases hb with rfl | rfl <;> apply hbyte <;> omega
  · rcases hb with rfl | rfl | rfl <;> apply hbyte <;> omega
  · rcases hb with rfl | rfl | rfl | rfl <;> apply hbyte <;> omega

/-- The character at the start of some bytes. -/
def firstChar (bs : List (BitVec 8)) : Option Char :=
  (bs.map UInt8.ofBitVec).toByteArray.utf8DecodeChar? 0

/-- Read characters after `skip` bytes; a byte that starts none is replaced by U+FFFD. -/
def decodeFrom : ℕ → List (BitVec 8) → List Char
  | _, [] => []
  | skip + 1, _ :: bs => decodeFrom skip bs
  | 0, b :: bs =>
      match firstChar (b :: bs) with
      | some c => c :: decodeFrom (c.utf8Size - 1) bs
      | none => '\uFFFD' :: decodeFrom 0 bs

def decodeUtf8 (bs : List (BitVec 8)) : List Char := decodeFrom 0 bs

theorem firstChar_append (c : Char) (bs : List (BitVec 8)) :
    firstChar (utf8Char c ++ bs) = some c := by
  have hchar : (utf8Char c).map UInt8.ofBitVec = String.utf8EncodeChar c := by
    simp [utf8Char, Function.comp_def]
  rw [firstChar, List.map_append, hchar, List.toByteArray_append]
  exact ByteArray.utf8DecodeChar?_utf8EncodeChar_append

theorem decodeFrom_append (bs cs : List (BitVec 8)) :
    decodeFrom bs.length (bs ++ cs) = decodeFrom 0 cs := by
  induction bs with
  | nil => rfl
  | cons b bs ih => exact ih

@[simp] theorem length_utf8Char (c : Char) : (utf8Char c).length = c.utf8Size := by
  simp [utf8Char]

theorem decodeUtf8_utf8 (cs : List Char) : decodeUtf8 (utf8 cs) = cs := by
  induction cs with
  | nil => rfl
  | cons c cs ih =>
      obtain ⟨b, bs, hbs⟩ : ∃ b bs, utf8Char c = b :: bs := by
        apply List.exists_cons_of_length_pos
        rw [length_utf8Char]
        exact c.utf8Size_pos
      have hlen : c.utf8Size - 1 = bs.length := by
        rw [← length_utf8Char, hbs]
        simp
      have hfirst := firstChar_append c (utf8 cs)
      rw [hbs, List.cons_append] at hfirst
      rw [utf8_cons, decodeUtf8, hbs, List.cons_append, decodeFrom, hfirst]
      simp only [hlen, decodeFrom_append]
      rw [← decodeUtf8, ih]

theorem wellFormed_iff {bs : List (BitVec 8)} : WellFormed bs ↔ utf8 (decodeUtf8 bs) = bs := by
  constructor
  · rintro ⟨cs, rfl⟩
    rw [decodeUtf8_utf8]
  · intro h
    exact ⟨_, h.symm⟩

instance (bs : List (BitVec 8)) :
    Decidable (WellFormed bs) := decidable_of_iff _ wellFormed_iff.symm

/-! ## UTF-16 -/

def utf16Char (c : Char) : List (BitVec 16) :=
  if c.toNat < 0x10000 then [BitVec.ofNat 16 c.toNat]
  else [BitVec.ofNat 16 (0xd800 + (c.toNat - 0x10000) / 0x400),
    BitVec.ofNat 16 (0xdc00 + (c.toNat - 0x10000) % 0x400)]

def utf16 (cs : List Char) : List (BitVec 16) := cs.flatMap utf16Char

@[simp] theorem utf16_nil : utf16 [] = [] := rfl

@[simp] theorem utf16_cons (c : Char) (cs : List Char) :
    utf16 (c :: cs) = utf16Char c ++ utf16 cs := rfl

/-- The first half of a surrogate pair. -/
def IsHigh (u : BitVec 16) : Prop := 0xd800 ≤ u.toNat ∧ u.toNat < 0xdc00

def IsLow (u : BitVec 16) : Prop := 0xdc00 ≤ u.toNat ∧ u.toNat < 0xe000

instance (u : BitVec 16) : Decidable (IsHigh u) := inferInstanceAs (Decidable (_ ∧ _))
instance (u : BitVec 16) : Decidable (IsLow u) := inferInstanceAs (Decidable (_ ∧ _))

/-- The character of a unit outside of a pair. -/
def single (u : BitVec 16) : Char := if IsHigh u ∨ IsLow u then '?' else Char.ofNat u.toNat

/-- Read characters; half a pair is replaced by a question mark. -/
def decodeUtf16 : List (BitVec 16) → List Char
  | [] => []
  | [u] => [single u]
  | hi :: lo :: us =>
      if IsHigh hi ∧ IsLow lo then
        Char.ofNat (0x10000 + (hi.toNat - 0xd800) * 0x400 + (lo.toNat - 0xdc00)) :: decodeUtf16 us
      else single hi :: decodeUtf16 (lo :: us)

theorem toNat_valid (c : Char) : c.toNat < 0xd800 ∨ 0xdfff < c.toNat ∧ c.toNat < 0x110000 := c.valid

theorem decodeUtf16_cons {u : BitVec 16} (h : ¬ IsHigh u) (us : List (BitVec 16)) :
    decodeUtf16 (u :: us) = single u :: decodeUtf16 us := by
  cases us with
  | nil => rfl
  | cons v us => rw [decodeUtf16, if_neg fun hs => h hs.1]

theorem decodeUtf16_append (c : Char) (us : List (BitVec 16)) :
    decodeUtf16 (utf16Char c ++ us) = c :: decodeUtf16 us := by
  have hvalid := toNat_valid c
  unfold utf16Char
  split_ifs with h
  · have hn : (BitVec.ofNat 16 c.toNat).toNat = c.toNat := by
      rw [BitVec.toNat_ofNat]
      omega
    have hhigh : ¬ IsHigh (BitVec.ofNat 16 c.toNat) := by
      unfold IsHigh
      omega
    have hlow : ¬ IsLow (BitVec.ofNat 16 c.toNat) := by
      unfold IsLow
      omega
    rw [List.singleton_append, decodeUtf16_cons hhigh, single, if_neg (by tauto), hn,
      Char.ofNat_toNat]
  · have hhi : (BitVec.ofNat 16 (0xd800 + (c.toNat - 0x10000) / 0x400)).toNat =
        0xd800 + (c.toNat - 0x10000) / 0x400 := by
      rw [BitVec.toNat_ofNat]
      omega
    have hlo : (BitVec.ofNat 16 (0xdc00 + (c.toNat - 0x10000) % 0x400)).toNat =
        0xdc00 + (c.toNat - 0x10000) % 0x400 := by
      rw [BitVec.toNat_ofNat]
      omega
    have hsum : 0x10000 + (0xd800 + (c.toNat - 0x10000) / 0x400 - 0xd800) * 0x400 +
        (0xdc00 + (c.toNat - 0x10000) % 0x400 - 0xdc00) = c.toNat := by omega
    have hpair : IsHigh (BitVec.ofNat 16 (0xd800 + (c.toNat - 0x10000) / 0x400)) ∧
        IsLow (BitVec.ofNat 16 (0xdc00 + (c.toNat - 0x10000) % 0x400)) := by
      unfold IsHigh IsLow
      rw [hhi, hlo]
      omega
    simp only [List.cons_append, List.nil_append, decodeUtf16, if_pos hpair, hhi, hlo, hsum,
      Char.ofNat_toNat]

theorem decodeUtf16_utf16 (cs : List Char) : decodeUtf16 (utf16 cs) = cs := by
  induction cs with
  | nil => rfl
  | cons c cs ih => rw [utf16_cons, decodeUtf16_append, ih]

end Llxvm.Utf
