import Llxvm.Runtime.Copy
import Mathlib.Data.List.Forall2

/-!
# Strings on the stack

`storeStack(String[])` builds the argument vector of a program: a block of pointers, and below
it one block for each string.  `load_string` reads a string back into an array that it doubles
whenever it is full.
-/

namespace Llxvm.Runtime

open LittleEndian

/-- `String.getBytes()` and `new String(byte[])`, for the default charset. -/
structure Charset (S : Type) where
  getBytes : S → List (BitVec 8)
  newString : List (BitVec 8) → S

/-- What `load_string` can throw. -/
inductive StringThrowable where
  | memory (e : Throwable)
  | arrayIndexOutOfBounds
  | negativeArraySize
  deriving DecidableEq

namespace Memory

/-- `NULL`, the first block of the data segment. -/
def null : BitVec 32 := 0#32

section store

variable {S : Type} (cs : Charset S)

/-- `storeStack(String)`. -/
def storeStackString (string : S) : MemM (BitVec 32) := do
  let bytes := cs.getBytes string
  let addr ← allocateStack (BitVec.ofNat 32 (bytes.length + 1))
  storeArray addr bytes
  storeByte (addr + BitVec.ofNat 32 bytes.length) 0#8
  return addr

/-- The loop of `storeStack(String[])`, from the index `i` on. -/
def storeStrings (addr : BitVec 32) : ℕ → List S → MemM Unit
  | _, [] => pure ()
  | i, string :: strings => do
    let value ← storeStackString cs string
    storeInt (addr + BitVec.ofNat 32 (i * 4)) value
    storeStrings addr (i + 1) strings

/-- `storeStack(String[])`. -/
def storeStackStrings (strings : List S) : MemM (BitVec 32) := do
  let addr ← allocateStack (BitVec.ofNat 32 (strings.length * 4 + 4))
  storeStrings cs addr 0 strings
  storeInt (addr + BitVec.ofNat 32 (strings.length * 4)) null
  return addr

end store

/-! ## Loading -/

/-- `load_i8` next to arrays of Java. -/
def readByte (m : Memory) (addr : BitVec 32) : Except StringThrowable (BitVec 8) :=
  match loadI8 addr m with
  | .ok b _ => .ok b
  | .error e _ => .error (.memory e)

/-- `bytes[i] = b`. -/
def arraySet (bytes : List (BitVec 8)) (i : ℕ) (b : BitVec 8) :
    Except StringThrowable (List (BitVec 8)) :=
  if i < bytes.length then .ok (bytes.set i b) else .error .arrayIndexOutOfBounds

/-- `Arrays.copyOf`, whose length is an `int`. -/
def copyOf (bytes : List (BitVec 8)) (n : ℕ) : Except StringThrowable (List (BitVec 8)) :=
  if n < 2 ^ 31 then .ok (bytes.take n ++ List.replicate (n - bytes.length) 0#8)
  else .error .negativeArraySize

/-- The loop of `load_string`, with the array and the index of its next element.  The fuel is
enough when it exceeds the number of bytes up to the end of the memory, where a load throws. -/
def loadStringLoop (m : Memory) : ℕ → List (BitVec 8) → ℕ → BitVec 32 →
    Except StringThrowable (List (BitVec 8) × ℕ)
  | 0, _, _, _ => .error .negativeArraySize
  | fuel + 1, bytes, i, addr => do
    let b ← readByte m addr
    let bytes ← arraySet bytes i b
    if b = 0#8 then return (bytes, i + 1)
    else if bytes.length ≤ i + 1 then
      loadStringLoop m fuel (← copyOf bytes ((i + 1) * 2)) (i + 1) (addr + 1#32)
    else loadStringLoop m fuel bytes (i + 1) (addr + 1#32)

def loadString {S : Type} (cs : Charset S) (addr : BitVec 32) (m : Memory) :
    Except StringThrowable S := do
  let (bytes, i) ← loadStringLoop m (memSize + 1) (List.replicate 16 0#8) 0 addr
  return cs.newString (← copyOf bytes (i - 1))

section load

variable {m : Memory}

theorem readByte_ok {addr : BitVec 32} {b : BitVec 8} (h : m.byte addr.toNat = some b) :
    readByte m addr = .ok b := by
  rw [readByte, loadI8_ok h]

theorem readByte_of_not_mapped {addr : BitVec 32} (h : ¬ m.Mapped addr.toNat) :
    readByte m addr = .error (.memory (.segmentationFault addr)) := by
  simp only [readByte, loadI8, bind, EStateM.bind, loadBytes_of_not_mapped 1 h]

theorem loadStringLoop_fuel {fuel : ℕ} {addr : BitVec 32} (hpos : 0 < fuel)
    (h : memSize < addr.toNat + fuel) (extra : ℕ) (bytes : List (BitVec 8)) (i : ℕ) :
    loadStringLoop m (fuel + extra) bytes i addr = loadStringLoop m fuel bytes i addr := by
  induction fuel generalizing addr bytes i with
  | zero => exact (lt_irrefl 0 hpos).elim
  | succ fuel ih =>
      rw [Nat.add_right_comm]
      by_cases hm : m.Mapped addr.toNat
      · have hnext : (addr + 1#32).toNat = addr.toNat + 1 := toNat_succ_of_mapped hm
        have hlt := hm.lt_memSize
        have hrest : ∀ bytes i, loadStringLoop m (fuel + extra) bytes i (addr + 1#32) =
            loadStringLoop m fuel bytes i (addr + 1#32) :=
          fun bytes i => ih (by omega) (by omega) bytes i
        simp only [loadStringLoop, hrest]
      · simp only [loadStringLoop, readByte_of_not_mapped hm]
        rfl

theorem copyOf_ok (bytes : List (BitVec 8)) {n : ℕ} (hn : n < 2 ^ 31) :
    ∃ bytes', copyOf bytes n = .ok bytes' ∧ bytes'.length = n ∧
      ∀ k ≤ bytes.length, k ≤ n → bytes'.take k = bytes.take k := by
  refine ⟨_, if_pos hn, ?_, fun k hk hkn => ?_⟩
  · rw [List.length_append, List.length_take, List.length_replicate]
    omega
  · have hlen : k ≤ (bytes.take n).length := by
      rw [List.length_take]
      omega
    rw [List.take_append_of_le_length hlen, List.take_take, Nat.min_eq_left hkn]

theorem take_set_succ {bytes bs : List (BitVec 8)} {i : ℕ} (hbytes : bytes.take i = bs.take i)
    (hlen : i < bytes.length) (hi : i < bs.length) :
    (bytes.set i bs[i]).take (i + 1) = bs.take (i + 1) := by
  rw [List.take_add_one, List.take_add_one, List.take_set_of_le le_rfl, hbytes,
    List.getElem?_set_self hlen, List.getElem?_eq_getElem hi]

/-- The array, of which the first `i` elements have been read, becomes full before it is too
small. -/
theorem loadStringLoop_ok {addr : BitVec 32} {bs : List (BitVec 8)}
    (h : m.Holds addr.toNat (bs ++ [0#8])) (hnul : 0#8 ∉ bs) {fuel i : ℕ} (hi : i ≤ bs.length)
    (hfuel : bs.length < i + fuel) {bytes : List (BitVec 8)} (hbytes : bytes.take i = bs.take i)
    (hlen : i < bytes.length) :
    ∃ bytes', loadStringLoop m fuel bytes i (addr + BitVec.ofNat 32 i) =
        .ok (bytes', bs.length + 1) ∧ bytes'.take bs.length = bs ∧ bs.length < bytes'.length := by
  induction fuel generalizing i bytes with
  | zero => omega
  | succ fuel ih =>
      have hmapped : ∀ {j : ℕ}, j ≤ bs.length → m.Mapped (addr.toNat + j) :=
        fun hj => h.mapped (by rw [List.length_append, List.length_singleton]; omega)
      have haddr := toNat_add_ofNat (hmapped hi)
      have hbyte := h i (by rw [List.length_append, List.length_singleton]; omega)
      rcases hi.lt_or_eq with hlt | rfl
      · have hb : bs[i] ≠ 0#8 := fun heq => hnul (heq ▸ List.getElem_mem hlt)
        have hread : readByte m (addr + BitVec.ofNat 32 i) = .ok bs[i] := by
          apply readByte_ok
          rw [haddr, hbyte, List.getElem?_append_left hlt, List.getElem?_eq_getElem hlt]
        have htake := take_set_succ hbytes hlen hlt
        have hnext : addr + BitVec.ofNat 32 i + 1#32 = addr + BitVec.ofNat 32 (i + 1) := by
          rw [BitVec.ofNat_add, BitVec.add_assoc]
        simp only [loadStringLoop, hread, arraySet, hlen, if_true, hb, if_false, bind, Except.bind,
          hnext]
        split_ifs with hfull
        · -- the array is full
          have hbound := (hmapped le_rfl).lt_memSize
          simp only [memSize] at hbound
          obtain ⟨bytes', hcopy, hlen', hkept⟩ :=
            copyOf_ok (bytes.set i bs[i]) (n := (i + 1) * 2) (by omega)
          rw [hcopy]
          apply ih hlt (by omega)
          · rw [hkept (i + 1) (by rw [List.length_set]; omega) (by omega), htake]
          · omega
        · exact ih hlt (by omega) htake (by omega)
      · have hread : readByte m (addr + BitVec.ofNat 32 bs.length) = .ok 0#8 := by
          apply readByte_ok
          rw [haddr, hbyte, List.getElem?_append_right le_rfl]
          simp
        refine ⟨bytes.set bs.length 0#8, ?_, ?_, ?_⟩
        · simp only [loadStringLoop, hread, arraySet, hlen, if_true, bind, Except.bind]
          rfl
        · rw [List.take_set_of_le le_rfl, hbytes, List.take_length]
        · rwa [List.length_set]

/-- A string that is stored with its null is read back, whatever its length. -/
theorem loadString_ok {S : Type} (cs : Charset S) {addr : BitVec 32} {bs : List (BitVec 8)}
    (h : m.Holds addr.toNat (bs ++ [0#8])) (hnul : 0#8 ∉ bs) :
    loadString cs addr m = .ok (cs.newString bs) := by
  have hbound := (h.mapped (i := bs.length) (by simp)).lt_memSize
  obtain ⟨bytes, hloop, htake, hlen⟩ := loadStringLoop_ok h hnul (Nat.zero_le _)
    (by omega : bs.length < 0 + (memSize + 1))
    (show (List.replicate 16 0#8).take 0 = bs.take 0 from rfl) (by simp)
  have hcopy : copyOf bytes (bs.length + 1 - 1) = .ok bs := by
    rw [Nat.add_sub_cancel, copyOf, if_pos (by simp only [memSize] at hbound; omega), htake,
      Nat.sub_eq_zero_of_le hlen.le, List.replicate_zero, List.append_nil]
  rw [BitVec.add_zero] at hloop
  simp only [loadString, hloop, bind, Except.bind, hcopy]
  rfl

end load

/-! ## Storing -/

/-- The stack pointer after allocations of the given sizes. -/
def stackAfter : ℤ → List ℕ → ℤ
  | sp, [] => sp
  | sp, n :: ns => stackAfter ((sp - n) / 8 * 8) ns

theorem stackAfter_le (sp : ℤ) (ns : List ℕ) : stackAfter sp ns ≤ sp := by
  induction ns generalizing sp with
  | nil => exact le_rfl
  | cons n ns ih =>
      have hrest := ih ((sp - n) / 8 * 8)
      rw [stackAfter]
      omega

theorem toNat_pushed_ofNat {sp : BitVec 32} {k : ℕ} (htop : sp.toNat ≤ memSize)
    (hroom : (stackBottom : ℤ) ≤ (sp.toNat - k) / 8 * 8) :
    ((pushed sp (BitVec.ofNat 32 k)).toNat : ℤ) = (sp.toNat - k) / 8 * 8 := by
  have hdown : (pushed sp (BitVec.ofNat 32 k)).toNat =
      (sp - BitVec.ofNat 32 k).toNat - (sp - BitVec.ofNat 32 k).toNat % 8 :=
    toNat_alignOffsetDown _
  have hsub : (sp - BitVec.ofNat 32 k).toNat = sp.toNat - k := by
    simp only [stackBottom, memSize, stackSize] at htop hroom
    rw [BitVec.toNat_sub, BitVec.toNat_ofNat]
    omega
  simp only [stackBottom, memSize, stackSize] at htop hroom
  omega

section stack

variable {S : Type} (cs : Charset S) {m : Memory}

/-- The block of a string is below the old stack pointer and holds the bytes and a null. -/
theorem storeStackString_ok (string : S) (hmap : StackMapped m)
    (htop : m.stackPointer.toNat ≤ memSize)
    (hroom : (stackBottom : ℤ) ≤
      (m.stackPointer.toNat - ((cs.getBytes string).length + 1 : ℕ)) / 8 * 8) :
    ∃ p m', storeStackString cs string m = .ok p m' ∧ m'.stackPointer = p ∧
      (p.toNat : ℤ) = (m.stackPointer.toNat - ((cs.getBytes string).length + 1 : ℕ)) / 8 * 8 ∧
      m'.Holds p.toNat (cs.getBytes string ++ [0#8]) ∧ (∀ x, m'.Mapped x ↔ m.Mapped x) ∧
      ∀ x, m.stackPointer.toNat ≤ x → m'.byte x = m.byte x := by
  have hp := toNat_pushed_ofNat htop hroom
  have halloc := allocateStack_eq m (BitVec.ofNat 32 ((cs.getBytes string).length + 1))
  generalize pushed m.stackPointer _ = p at hp halloc
  have hblock : ∀ i < (cs.getBytes string ++ [0#8]).length,
      ({ m with stackPointer := p } : Memory).Mapped (p.toNat + i) := by
    intro i hi
    rw [List.length_append, List.length_singleton] at hi
    exact hmap _ (by omega) (by omega)
  obtain ⟨m', hstore, hhold, hregs, hmapped, hout⟩ := storeArray_ok hblock
  have hall : storeStackString cs string = do
      let addr ← allocateStack (BitVec.ofNat 32 ((cs.getBytes string).length + 1))
      storeArray addr (cs.getBytes string ++ [0#8])
      return addr := by
    simp [storeStackString, storeArray_append, storeArray]
  refine ⟨p, m', ?_, ?_, hp, hhold, hmapped, fun x hx => ?_⟩
  · rw [hall]
    simp only [bind, EStateM.bind, halloc, hstore]
    rfl
  · rw [hregs]
  · rw [hout x]
    · exact byte_congr rfl x
    · rw [List.length_append, List.length_singleton]
      omega

theorem storeInt_ok (addr value : BitVec 32) (hm : m.Mapped addr.toNat)
    (haddr : 4 ∣ addr.toNat) :
    storeInt addr value m = .ok () (m.write addr.toNat (leBytes 4 value)) := by
  refine storeBytes_ok hm ?_
  rw [length_leBytes]
  exact inPage_of_dvd (by decide) haddr le_rfl

/-- The bytes of a string and its null. -/
def stringBlock (p : BitVec 32) (string : S) : Block := ⟨p.toNat, (cs.getBytes string).length + 1⟩

/-- The strings from the index `i` on stand below the old stack pointer, in blocks that do not
meet, and the array at `a` points to them. -/
structure StringsAt (m m' : Memory) (a i : ℕ) (ps : List (BitVec 32)) (strings : List S) :
    Prop where
  pointers : ∀ j p, ps[j]? = some p → m'.Holds (a + 4 * (i + j)) (leBytes 4 p)
  contents : List.Forall₂ (fun p s => m'.Holds p.toNat (cs.getBytes s ++ [0#8])) ps strings
  upper : ∀ b ∈ List.zipWith (stringBlock cs) ps strings, b.base + b.size ≤ m.stackPointer.toNat
  disjoint : (List.zipWith (stringBlock cs) ps strings).Pairwise Block.Disjoint
  mapped : ∀ x, m'.Mapped x ↔ m.Mapped x
  frame : ∀ x, m.stackPointer.toNat ≤ x → (x < a + 4 * i ∨ a + 4 * (i + strings.length) ≤ x) →
    m'.byte x = m.byte x

theorem storeStrings_ok {a : BitVec 32} (haligned : 8 ∣ a.toNat) (strings : List S) {i : ℕ}
    (hend : a.toNat + 4 * (i + strings.length) ≤ memSize) (hmap : StackMapped m)
    (hsp : m.stackPointer.toNat ≤ a.toNat)
    (hroom : (stackBottom : ℤ) ≤ stackAfter m.stackPointer.toNat
      (strings.map fun s => (cs.getBytes s).length + 1)) :
    ∃ ps m', storeStrings cs a i strings m = .ok () m' ∧
      StringsAt cs m m' a.toNat i ps strings := by
  induction strings generalizing i m with
  | nil =>
      exact ⟨[], m, rfl, by simp, .nil, by simp, .nil, fun _ => Iff.rfl, fun _ _ _ => rfl⟩
  | cons string strings ih =>
      rw [List.map_cons, stackAfter] at hroom
      rw [List.length_cons] at hend
      have hhead := hroom.trans (stackAfter_le _ _)
      obtain ⟨p, m₁, hstore, hsp₁, hp, hhold, hmapped₁, hout₁⟩ :=
        storeStackString_ok cs string hmap (by omega) hhead
      -- the pointer is stored above the strings
      have hlow : stackBottom ≤ a.toNat := by omega
      have hcell : (a + BitVec.ofNat 32 (i * 4)).toNat = a.toNat + 4 * i := by
        rw [BitVec.toNat_add, BitVec.toNat_ofNat]
        simp only [memSize] at hend
        omega
      have hm₁ : m₁.Mapped (a.toNat + 4 * i) := (hmapped₁ _).mpr (hmap _ (by omega) (by omega))
      have hdvd : 4 ∣ a.toNat + 4 * i := by omega
      have hpage : InPage (a.toNat + 4 * i) (leBytes 4 p).length := by
        rw [length_leBytes]
        exact inPage_of_dvd (by decide) hdvd le_rfl
      have hint := storeInt_ok (a + BitVec.ofNat 32 (i * 4)) p
        (by rw [hcell]; exact hm₁) (by rw [hcell]; exact hdvd)
      rw [hcell] at hint
      have hmapped₂ : ∀ x, (m₁.write (a.toNat + 4 * i) (leBytes 4 p)).Mapped x ↔ m.Mapped x :=
        fun x => (mapped_write ..).trans (hmapped₁ x)
      have hbyte : ∀ x, x < a.toNat + 4 * i ∨ a.toNat + 4 * (i + 1) ≤ x →
          (m₁.write (a.toNat + 4 * i) (leBytes 4 p)).byte x = m₁.byte x := by
        intro x hx
        rw [byte_write hm₁ hpage, length_leBytes, if_neg (by omega)]
      obtain ⟨ps, m', hrest, hat⟩ := ih (i := i + 1)
        (m := m₁.write (a.toNat + 4 * i) (leBytes 4 p)) (by omega)
        (fun x hlo hhi => (hmapped₂ x).mpr (hmap x hlo hhi))
        (by rw [write_stackPointer, hsp₁]; omega)
        (by rw [write_stackPointer, hsp₁, hp]; exact hroom)
      have hframe := hat.frame
      have hupper := hat.upper
      rw [write_stackPointer, hsp₁] at hframe hupper
      -- what is stored later is below the string, or above the pointer
      have hkeep : ∀ x, p.toNat ≤ x → x < a.toNat + 4 * (i + 1) →
          m'.byte x = (m₁.write (a.toNat + 4 * i) (leBytes 4 p)).byte x :=
        fun x hlo hhi => hframe x hlo (Or.inl hhi)
      refine ⟨p :: ps, m', ?_, ?_, ?_, ?_, ?_, fun x => (hat.mapped x).trans (hmapped₂ x), ?_⟩
      · simp only [storeStrings, bind, EStateM.bind, hstore, hint]
        exact hrest
      · intro j q hj
        cases j with
        | zero =>
            obtain rfl : p = q := by simpa using hj
            intro k hk
            have hk' : k < 4 := by simpa using hk
            rw [hkeep _ (by omega) (by omega)]
            exact holds_write hm₁ hpage k hk
        | succ j =>
            have hpointer := hat.pointers j q (by simpa using hj)
            rwa [Nat.add_assoc i 1 j, Nat.add_comm 1 j] at hpointer
      · refine .cons (fun k hk => ?_) hat.contents
        have hk' : k < (cs.getBytes string).length + 1 := by simpa using hk
        rw [hkeep _ (by omega) (by omega), hbyte _ (by omega)]
        exact hhold k hk
      · intro b hb
        rcases List.mem_cons.mp hb with rfl | hb
        · simp only [stringBlock]
          omega
        · have := hupper b hb
          omega
      · refine List.pairwise_cons.mpr ⟨fun b hb => Or.inr ?_, hat.disjoint⟩
        exact hupper b hb
      · intro x hlo hx
        rw [List.length_cons] at hx
        rw [hframe x (by omega) (by omega), hbyte x (by omega), hout₁ x hlo]

/-- The strings and the array of pointers fit between the stack pointer and the bottom of the
stack. -/
structure ArgvFits (m : Memory) (strings : List S) : Prop where
  mapped : StackMapped m
  top : m.stackPointer.toNat ≤ memSize
  room : (stackBottom : ℤ) ≤ stackAfter m.stackPointer.toNat
    ((strings.length * 4 + 4) :: strings.map fun s => (cs.getBytes s).length + 1)

/-- The pointers at `a` are those of the strings, followed by a null pointer. -/
structure Argv (m m' : Memory) (a : BitVec 32) (strings : List S) (ps : List (BitVec 32)) :
    Prop where
  length : ps.length = strings.length
  pointers : ∀ i p, ps[i]? = some p → loadI32 (a + BitVec.ofNat 32 (4 * i)) m' = .ok p m'
  contents : List.Forall₂ (fun p s => loadString cs p m' = .ok s) ps strings
  null : loadI32 (a + BitVec.ofNat 32 (4 * strings.length)) m' = .ok null m'
  disjoint : (⟨a.toNat, 4 * strings.length + 4⟩ ::
    List.zipWith (stringBlock cs) ps strings).Pairwise Block.Disjoint
  frame : ∀ x, m.stackPointer.toNat ≤ x → m'.byte x = m.byte x

/-- `storeStack(String[])` builds the argument vector, for strings without a null byte on which
the conversions are inverse. -/
theorem storeStackStrings_ok {strings : List S} (hfits : ArgvFits cs m strings)
    (hnul : ∀ s ∈ strings, 0#8 ∉ cs.getBytes s)
    (hinv : ∀ s ∈ strings, cs.newString (cs.getBytes s) = s) :
    ∃ a m' ps, storeStackStrings cs strings m = .ok a m' ∧ Argv cs m m' a strings ps := by
  have hroom := hfits.room
  rw [stackAfter] at hroom
  have hhead := hroom.trans (stackAfter_le _ _)
  have ha := toNat_pushed_ofNat hfits.top hhead
  have halloc := allocateStack_eq m (BitVec.ofNat 32 (strings.length * 4 + 4))
  generalize pushed m.stackPointer _ = a at ha halloc
  have htop := hfits.top
  have haligned : 8 ∣ a.toNat := by omega
  obtain ⟨ps, m₁, hstore, hat⟩ := storeStrings_ok cs (m := { m with stackPointer := a }) haligned
    strings (i := 0) (by omega) hfits.mapped le_rfl (by rw [ha]; exact hroom)
  have hmem : a.toNat + 4 * strings.length + 4 ≤ memSize := by omega
  have hlen : ps.length = strings.length := hat.contents.length_eq
  have hcell : ∀ i ≤ strings.length, (a + BitVec.ofNat 32 (4 * i)).toNat = a.toNat + 4 * i := by
    intro i hi
    simp only [memSize] at hmem
    rw [BitVec.toNat_add, BitVec.toNat_ofNat]
    omega
  have hm₁ : m₁.Mapped (a.toNat + 4 * strings.length) :=
    (hat.mapped _).mpr (hfits.mapped _ (by omega) (by omega))
  have hdvd : ∀ i, 4 ∣ a.toNat + 4 * i := fun i => by omega
  have hpage : InPage (a.toNat + 4 * strings.length) (leBytes 4 null).length := by
    rw [length_leBytes]
    exact inPage_of_dvd (by decide) (hdvd _) le_rfl
  have hnull := storeInt_ok (a + BitVec.ofNat 32 (4 * strings.length)) null
    (by rw [hcell _ le_rfl]; exact hm₁) (by rw [hcell _ le_rfl]; exact hdvd _)
  rw [hcell _ le_rfl] at hnull
  refine ⟨a, m₁.write (a.toNat + 4 * strings.length) (leBytes 4 null), ps, ?_, hlen, ?_, ?_, ?_, ?_,
    ?_⟩
  · have hindex : 4 * strings.length = strings.length * 4 := Nat.mul_comm _ _
    rw [hindex] at hnull ⊢
    simp only [storeStackStrings, bind, EStateM.bind, halloc, hstore, hnull]
    rfl
  · intro i p hi
    have hlt : i < strings.length := by
      rw [← hlen]
      exact (List.getElem?_eq_some_iff.mp hi).1
    apply loadI32_ok
    · rw [hcell i hlt.le]
      have hpointer := hat.pointers i p hi
      rw [Nat.zero_add] at hpointer
      exact hpointer.write_of_disjoint hm₁ hpage (by rw [length_leBytes]; omega)
    · rw [hcell i hlt.le]
      exact hdvd i
  · refine List.forall₂_iff_zip.mpr ⟨hlen, fun {p s} hmem => ?_⟩
    have hs : s ∈ strings := (List.of_mem_zip hmem).2
    have hblock : stringBlock cs p s ∈ List.zipWith (stringBlock cs) ps strings := by
      rw [← List.map_uncurry_zip_eq_zipWith]
      exact List.mem_map_of_mem (f := Function.uncurry (stringBlock cs)) hmem
    have hupper : p.toNat + ((cs.getBytes s).length + 1) ≤ a.toNat := hat.upper _ hblock
    have hhold : m₁.Holds p.toNat (cs.getBytes s ++ [0#8]) := List.forall₂_zip hat.contents hmem
    rw [loadString_ok cs (hhold.write_of_disjoint hm₁ hpage ?_) (hnul s hs), hinv s hs]
    left
    rw [List.length_append, List.length_singleton]
    omega
  · apply loadI32_ok
    · rw [hcell _ le_rfl]
      exact holds_write hm₁ hpage
    · rw [hcell _ le_rfl]
      exact hdvd _
  · refine List.pairwise_cons.mpr ⟨fun b hb => Or.inr ?_, hat.disjoint⟩
    exact hat.upper b hb
  · intro x hx
    rw [byte_write hm₁ hpage, length_leBytes, if_neg (by omega), hat.frame x
      (by omega : a.toNat ≤ x)
      (by omega)]
    exact byte_congr rfl x

end stack

/-- The conversions on strings of ASCII characters. -/
def ascii : Charset (List Char) where
  getBytes s := s.map fun c => BitVec.ofNat 8 c.toNat
  newString bs := bs.map fun b => Char.ofNat b.toNat

theorem storeStackStrings_ok_command :
    ∃ a m' ps, storeStackStrings ascii [['l', 's'], [], ['-', 'l']] Memory.initial = .ok a m' ∧
      Argv ascii Memory.initial m' a [['l', 's'], [], ['-', 'l']] ps :=
  storeStackStrings_ok ascii ⟨stackInv_initial.mapped, by decide, by decide⟩ (by decide) (by decide)

end Memory

end Llxvm.Runtime
