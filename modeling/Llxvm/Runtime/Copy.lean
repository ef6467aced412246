import Llxvm.Runtime.StackFrames

/-!
# Copying

`memcpy` and `memmove` copy byte by byte, the one upwards and the other in the direction in
which no byte is overwritten before it has been read.  The invariant of both loops is the range
of the bytes that are copied, relative to the memory before the call.
-/

namespace Llxvm.Runtime.Memory

open LittleEndian

/-- The body of the loops. -/
def copyByte (dest src i : BitVec 32) : MemM Unit := do
  let value ← loadI8 (src + i)
  storeByte (dest + i) value

/-- The loop with `i++`, by the number of iterations left. -/
def copyUp (dest src : BitVec 32) : ℕ → BitVec 32 → MemM Unit
  | 0, _ => pure ()
  | n + 1, i => do
    copyByte dest src i
    copyUp dest src n (i + 1#32)

/-- The loop with `i--`. -/
def copyDown (dest src : BitVec 32) : ℕ → BitVec 32 → MemM Unit
  | 0, _ => pure ()
  | n + 1, i => do
    copyByte dest src i
    copyDown dest src n (i - 1#32)

def memcpy (dest src len _align : BitVec 32) : MemM Unit := copyUp dest src len.toInt.toNat 0#32

def memmove (dest src len _align : BitVec 32) : MemM Unit :=
  if dest.slt src then copyUp dest src len.toInt.toNat 0#32
  else copyDown dest src ((len - 1#32).toInt + 1).toNat (len - 1#32)

/-- All at once the bytes from `src` on have been copied to `dest`. -/
structure Copied (m m' : Memory) (dest src n : ℕ) : Prop where
  copied : ∀ i < n, m'.byte (dest + i) = m.byte (src + i)
  frame : ∀ x, x < dest ∨ dest + n ≤ x → m'.byte x = m.byte x

/-! ## One byte -/

/-- The bytes with the indices from `lo` to `hi` have been copied. -/
structure CopiedBetween (m₀ m : Memory) (dest src lo hi : ℕ) : Prop where
  copied : ∀ i, lo ≤ i → i < hi → m.byte (dest + i) = m₀.byte (src + i)
  frame : ∀ x, x < dest + lo ∨ dest + hi ≤ x → m.byte x = m₀.byte x
  mapped : ∀ x, m.Mapped x ↔ m₀.Mapped x

theorem CopiedBetween.refl (m : Memory) (dest src i : ℕ) : CopiedBetween m m dest src i i :=
  ⟨fun _ h h' => by omega, fun _ _ => rfl, fun _ => Iff.rfl⟩

theorem loadI8_ok {m : Memory} {addr : BitVec 32} {b : BitVec 8} (h : m.byte addr.toNat = some b) :
    loadI8 addr m = .ok b m := by
  have hholds : m.Holds addr.toNat [b] := by
    intro i hi
    obtain rfl : i = 0 := by simpa using hi
    simpa using h
  have hload : loadBytes addr 1 m = .ok [b] m := loadBytes_ok (by simp) hholds (inPage_one _)
  have hb : ofLeBytes 8 [b] = b := by simpa [leBytes] using ofLeBytes_leBytes (n := 1) (by decide) b
  simp only [loadI8, bind, EStateM.bind, hload, hb]
  rfl

theorem toNat_add_ofNat {m : Memory} {a : BitVec 32} {i : ℕ} (h : m.Mapped (a.toNat + i)) :
    (a + BitVec.ofNat 32 i).toNat = a.toNat + i := by
  have hlt := h.lt_memSize
  simp only [memSize] at hlt
  rw [BitVec.toNat_add, BitVec.toNat_ofNat]
  omega

section loops

variable {m₀ m : Memory} {dest src : BitVec 32} {n : ℕ}

/-- A byte that is still the old one at its source is added to the range, at either end. -/
theorem copyByte_ok {i lo hi : ℕ} (hinv : CopiedBetween m₀ m dest.toNat src.toNat lo hi)
    (hd : m₀.Mapped (dest.toNat + i)) (hs : m₀.Mapped (src.toNat + i))
    (hsrc : src.toNat + i < dest.toNat + lo ∨ dest.toNat + hi ≤ src.toNat + i) :
    ∃ m', copyByte dest src (BitVec.ofNat 32 i) m = .ok () m' ∧
      (i = hi → lo ≤ hi → CopiedBetween m₀ m' dest.toNat src.toNat lo (hi + 1)) ∧
      (i + 1 = lo → lo ≤ hi → CopiedBetween m₀ m' dest.toNat src.toNat i hi) := by
  obtain ⟨b, hb⟩ := Option.isSome_iff_exists.mp hs
  have hd' : m.Mapped (dest + BitVec.ofNat 32 i).toNat := by
    rw [toNat_add_ofNat hd]
    exact (hinv.mapped _).mpr hd
  have hload : loadI8 (src + BitVec.ofNat 32 i) m = .ok b m := by
    apply loadI8_ok
    rw [toNat_add_ofNat hs, hinv.frame _ hsrc, hb]
  have hbyte : ∀ x, (m.write (dest.toNat + i) [b]).byte x =
      if x = dest.toNat + i then some b else m.byte x := by
    intro x
    rw [byte_write (by rwa [toNat_add_ofNat hd] at hd') (inPage_one _)]
    by_cases hx : x = dest.toNat + i
    · simp [hx]
    · rw [if_neg hx, if_neg]
      rw [List.length_singleton]
      omega
  refine ⟨m.write (dest.toNat + i) [b], ?_, ?_, ?_⟩
  · simp only [copyByte, bind, EStateM.bind, hload]
    rw [storeByte_ok b hd', toNat_add_ofNat hd]
  · rintro rfl hle
    refine ⟨fun j hlo hhi => ?_, fun x hx => ?_, fun x => (mapped_write ..).trans (hinv.mapped x)⟩
    · rw [hbyte]
      split_ifs with hj
      · obtain rfl : j = i := by omega
        exact hb.symm
      · exact hinv.copied j hlo (by omega)
    · rw [hbyte, if_neg (by omega)]
      exact hinv.frame x (by omega)
  · rintro rfl hle
    refine ⟨fun j hlo hhi => ?_, fun x hx => ?_, fun x => (mapped_write ..).trans (hinv.mapped x)⟩
    · rw [hbyte]
      split_ifs with hj
      · obtain rfl : j = i := by omega
        exact hb.symm
      · exact hinv.copied j (by omega) hhi
    · rw [hbyte, if_neg (by omega)]
      exact hinv.frame x (by omega)

/-- Upwards, no byte of the source above the copied range has been overwritten. -/
theorem copyUp_ok (hd : ∀ i < n, m₀.Mapped (dest.toNat + i))
    (hs : ∀ i < n, m₀.Mapped (src.toNat + i))
    (hsrc : dest.toNat ≤ src.toNat ∨ src.toNat + n ≤ dest.toNat) {k i : ℕ} (hk : i + k = n)
    (hinv : CopiedBetween m₀ m dest.toNat src.toNat 0 i) :
    ∃ m', copyUp dest src k (BitVec.ofNat 32 i) m = .ok () m' ∧
      CopiedBetween m₀ m' dest.toNat src.toNat 0 n := by
  induction k generalizing i m with
  | zero =>
      obtain rfl : i = n := by omega
      exact ⟨m, rfl, hinv⟩
  | succ k ih =>
      obtain ⟨m₁, hcopy, hnext, -⟩ := copyByte_ok hinv (hd i (by omega)) (hs i (by omega))
        (by rcases hsrc with h | h <;> omega)
      obtain ⟨m', hrest, hall⟩ := ih (by omega) (hnext rfl (Nat.zero_le i))
      refine ⟨m', ?_, hall⟩
      simp only [copyUp, bind, EStateM.bind, hcopy]
      rw [← hrest, BitVec.ofNat_add]

/-- Downwards, no byte of the source below the copied range has been overwritten. -/
theorem copyDown_ok (hd : ∀ i < n, m₀.Mapped (dest.toNat + i))
    (hs : ∀ i < n, m₀.Mapped (src.toNat + i)) (hsrc : src.toNat ≤ dest.toNat) {k : ℕ} (hk : k ≤ n)
    (hinv : CopiedBetween m₀ m dest.toNat src.toNat k n) :
    ∃ m', copyDown dest src k (BitVec.ofNat 32 k - 1#32) m = .ok () m' ∧
      CopiedBetween m₀ m' dest.toNat src.toNat 0 n := by
  induction k generalizing m with
  | zero => exact ⟨m, rfl, hinv⟩
  | succ k ih =>
      have hindex : BitVec.ofNat 32 (k + 1) - 1#32 = BitVec.ofNat 32 k := by
        rw [BitVec.ofNat_add, BitVec.add_sub_cancel]
      obtain ⟨m₁, hcopy, -, hnext⟩ := copyByte_ok hinv (hd k (by omega)) (hs k (by omega))
        (by omega)
      obtain ⟨m', hrest, hall⟩ := ih (by omega) (hnext rfl hk)
      refine ⟨m', ?_, hall⟩
      simp only [copyDown, bind, EStateM.bind, hindex, hcopy]
      exact hrest

theorem CopiedBetween.whole {d s : ℕ} (h : CopiedBetween m₀ m d s 0 n) : Copied m₀ m d s n :=
  ⟨fun i hi => h.copied i (Nat.zero_le i) hi, h.frame⟩

theorem Copied.byte_eq {m₁ m₂ : Memory} {d s : ℕ} (h₁ : Copied m₀ m₁ d s n)
    (h₂ : Copied m₀ m₂ d s n) (x : ℕ) : m₁.byte x = m₂.byte x := by
  by_cases hx : x < d ∨ d + n ≤ x
  · rw [h₁.frame x hx, h₂.frame x hx]
  · obtain ⟨i, rfl⟩ := Nat.exists_eq_add_of_le (by omega : d ≤ x)
    rw [h₁.copied i (by omega), h₂.copied i (by omega)]

end loops

section calls

variable {m : Memory} {dest src len : BitVec 32}

theorem toInt_toNat_of_nonneg (hlen : 0 ≤ len.toInt) : len.toInt.toNat = len.toNat := by
  have hlt := toNat_lt_of_toInt_nonneg hlen
  rw [toInt_eq, if_pos (by omega), Int.toNat_natCast]

/-- The number of iterations of the loop that begins with `len - 1`. -/
theorem toNat_pred_add_one (hlen : 0 ≤ len.toInt) :
    ((len - 1#32).toInt + 1).toNat = len.toNat := by
  have hlt := toNat_lt_of_toInt_nonneg hlen
  have hsub : (len - 1#32).toNat = if len.toNat = 0 then 2 ^ 32 - 1 else len.toNat - 1 := by
    rw [BitVec.toNat_sub, BitVec.toNat_ofNat]
    split_ifs <;> omega
  rw [toInt_eq, hsub]
  split_ifs <;> omega

theorem slt_iff_of_mapped {a b : BitVec 32} (ha : m.Mapped a.toNat) (hb : m.Mapped b.toNat) :
    a.slt b ↔ a.toNat < b.toNat := by
  have ha' := ha.lt_memSize
  have hb' := hb.lt_memSize
  simp only [memSize] at ha' hb'
  rw [BitVec.slt_iff_toInt_lt, BitVec.toInt_eq_toNat_of_lt (by omega),
    BitVec.toInt_eq_toNat_of_lt (by omega)]
  exact Int.ofNat_lt

theorem memcpy_ok (align : BitVec 32) (hlen : 0 ≤ len.toInt)
    (hd : ∀ i < len.toNat, m.Mapped (dest.toNat + i))
    (hs : ∀ i < len.toNat, m.Mapped (src.toNat + i))
    (hsrc : dest.toNat ≤ src.toNat ∨ src.toNat + len.toNat ≤ dest.toNat) :
    ∃ m', memcpy dest src len align m = .ok () m' ∧
      Copied m m' dest.toNat src.toNat len.toNat := by
  obtain ⟨m', hrun, hall⟩ := copyUp_ok hd hs hsrc (Nat.zero_add len.toNat)
    (CopiedBetween.refl m dest.toNat src.toNat 0)
  refine ⟨m', ?_, hall.whole⟩
  rw [memcpy, toInt_toNat_of_nonneg hlen]
  exact hrun

/-- `memmove` copies all bytes at once, and so does `memcpy` if the ranges are disjoint or the
destination is not above the source. -/
theorem memmove_ok (align : BitVec 32) (hlen : 0 ≤ len.toInt)
    (hd : ∀ i < len.toNat, m.Mapped (dest.toNat + i))
    (hs : ∀ i < len.toNat, m.Mapped (src.toNat + i)) :
    ∃ m', memmove dest src len align m = .ok () m' ∧
      Copied m m' dest.toNat src.toNat len.toNat ∧
      (dest.toNat ≤ src.toNat ∨ src.toNat + len.toNat ≤ dest.toNat →
        ∃ m'', memcpy dest src len align m = .ok () m'' ∧ ∀ x, m''.byte x = m'.byte x) := by
  suffices h : ∃ m', memmove dest src len align m = .ok () m' ∧
      Copied m m' dest.toNat src.toNat len.toNat by
    obtain ⟨m', hrun, hcopied⟩ := h
    refine ⟨m', hrun, hcopied, fun hsrc => ?_⟩
    obtain ⟨m'', hrun', hcopied'⟩ := memcpy_ok align hlen hd hs hsrc
    exact ⟨m'', hrun', hcopied'.byte_eq hcopied⟩
  rw [memmove]
  split_ifs with hlt
  · have hsrc : dest.toNat ≤ src.toNat ∨ src.toNat + len.toNat ≤ dest.toNat := by
      rcases Nat.eq_zero_or_pos len.toNat with hzero | hpos
      · omega
      · exact Or.inl ((slt_iff_of_mapped (hd 0 hpos) (hs 0 hpos)).mp hlt).le
    obtain ⟨m', hrun, hall⟩ := copyUp_ok hd hs hsrc (Nat.zero_add len.toNat)
      (CopiedBetween.refl m dest.toNat src.toNat 0)
    refine ⟨m', ?_, hall.whole⟩
    rw [toInt_toNat_of_nonneg hlen]
    exact hrun
  · rw [toNat_pred_add_one hlen]
    rcases Nat.eq_zero_or_pos len.toNat with hzero | hpos
    · rw [hzero]
      exact ⟨m, rfl, fun i hi => by omega, fun _ _ => rfl⟩
    · have hsrc := not_lt.mp (mt (slt_iff_of_mapped (hd 0 hpos) (hs 0 hpos)).mpr hlt)
      obtain ⟨m', hrun, hall⟩ := copyDown_ok hd hs hsrc le_rfl
        (CopiedBetween.refl m dest.toNat src.toNat len.toNat)
      refine ⟨m', ?_, hall.whole⟩
      rw [← hrun, BitVec.ofNat_toNat, BitVec.setWidth_eq]

/-- Eight bytes are copied four bytes up and four bytes down, over themselves. -/
theorem memmove_ok_overlapping : ∃ m m₁ m₂ m₃,
    storeLong 0x100#32 0x8877665544332211#64 Memory.initial = .ok () m ∧
    memmove 0x104#32 0x100#32 8#32 1#32 m = .ok () m₁ ∧
    m₁.Holds 0x104 [0x11, 0x22, 0x33, 0x44, 0x55, 0x66, 0x77, 0x88] ∧
    memmove 0xfc#32 0x100#32 8#32 1#32 m = .ok () m₂ ∧
    m₂.Holds 0xfc [0x11, 0x22, 0x33, 0x44, 0x55, 0x66, 0x77, 0x88] ∧
    memcpy 0xfc#32 0x100#32 8#32 1#32 m = .ok () m₃ ∧ ∀ x, m₃.byte x = m₂.byte x := by
  have hmapped : Memory.initial.Mapped 0x100 := by decide
  have hin : InPage 0x100 (leBytes 8 0x8877665544332211#64).length := by
    rw [length_leBytes]
    exact inPage_of_dvd (by decide : 8 ∣ pageSize) (by decide) le_rfl
  have hbytes : leBytes 8 0x8877665544332211#64 =
      [0x11, 0x22, 0x33, 0x44, 0x55, 0x66, 0x77, 0x88] := by decide
  generalize hm : Memory.initial.write 0x100 (leBytes 8 0x8877665544332211#64) = m
  have hholds : m.Holds 0x100 [0x11, 0x22, 0x33, 0x44, 0x55, 0x66, 0x77, 0x88] :=
    hbytes ▸ hm ▸ holds_write hmapped hin
  have hcopied : ∀ {m' : Memory} {dest : ℕ}, Copied m m' dest 0x100 8 →
      m'.Holds dest [0x11, 0x22, 0x33, 0x44, 0x55, 0x66, 0x77, 0x88] := fun h i hi =>
    (h.copied i hi).trans (hholds i hi)
  have hrange : ∀ k ≤ 8, ∀ i < 8, m.Mapped (0xfc + k + i) := by
    simp only [← hm, mapped_write]
    decide
  obtain ⟨m₁, hup, hcopied₁, -⟩ := @memmove_ok m 0x104#32 0x100#32 8#32 1#32 (by decide)
    (hrange 8 le_rfl) (hrange 4 (by decide))
  obtain ⟨m₂, hdown, hcopied₂, hmemcpy⟩ := @memmove_ok m 0xfc#32 0x100#32 8#32 1#32 (by decide)
    (hrange 0 (by decide)) (hrange 4 (by decide))
  obtain ⟨m₃, hrun, hsame⟩ := hmemcpy (by decide)
  exact ⟨m, m₁, m₂, m₃, hm ▸ storeBytes_ok hmapped hin, hup, hcopied hcopied₁, hdown,
    hcopied hcopied₂, hrun, hsame⟩

end calls

end Llxvm.Runtime.Memory
