import Llxvm.Runtime.FileDescriptors
import Llxvm.Runtime.Pack

/-!
# File handles

`llxvm.io.AbstractFileHandle`: bytes are moved between a stream and the memory one at a time, and
an `IOException` at any of them makes the result -1.
-/

namespace Llxvm.Runtime.FileHandle

open Memory LittleEndian

def einval : BitVec 32 := 22#32

/-- What the methods of a subclass answer, by the number of calls made before; `none` is an
`IOException`. -/
structure Stream where
  read : ℕ → Option (BitVec 32)
  available : ℕ → Option Bool
  write : ℕ → Option Unit
  flush : Option Unit

/-- The memory and the stream during a transfer: the calls made of each method, the bytes the
stream has given, and the bytes it has been passed. -/
structure Transfer where
  memory : Memory
  reads : ℕ
  availables : ℕ
  writes : ℕ
  taken : List (BitVec 8)
  passed : List (BitVec 8)

def Transfer.start (m : Memory) : Transfer := ⟨m, 0, 0, 0, [], []⟩

inductive TransferThrowable where
  | memory (e : Throwable)
  | ioException

abbrev TransferM := EStateM TransferThrowable Transfer

def onMemory {α : Type} (x : MemM α) : TransferM α := fun t =>
  match x t.memory with
  | .ok a m => .ok a { t with memory := m }
  | .error e m => .error (.memory e) { t with memory := m }

/-- `catch (IOException e)`; other exceptions pass. -/
def catchIOException {σ α : Type} (x handler : EStateM TransferThrowable σ α) :
    EStateM TransferThrowable σ α := fun t =>
  match x t with
  | .error .ioException t' => handler t'
  | r => r

section catchIOException

variable {σ α β : Type} {x : EStateM TransferThrowable σ α}
  {f : α → EStateM TransferThrowable σ β} {handler : EStateM TransferThrowable σ β} {t t' : σ}

theorem catchIOException_bind_ok {a : α} (h : x t = .ok a t') :
    catchIOException (x >>= f) handler t = catchIOException (f a) handler t' := by
  simp only [catchIOException, bind, EStateM.bind, h]

theorem catchIOException_bind_io (h : x t = .error .ioException t') :
    catchIOException (x >>= f) handler t = handler t' := by
  simp only [catchIOException, bind, EStateM.bind, h]

theorem catchIOException_bind_memory {e : Throwable} (h : x t = .error (.memory e) t') :
    catchIOException (x >>= f) handler t = .error (.memory e) t' := by
  simp only [catchIOException, bind, EStateM.bind, h]

theorem catchIOException_pure (b : β) : catchIOException (pure b) handler t = .ok b t := rfl

end catchIOException

namespace Stream

variable (s : Stream)

/-- `read()`: a byte, or a negative number at the end of the file. -/
def readByte : TransferM (BitVec 32) := fun t =>
  match s.read t.reads with
  | none => .error .ioException { t with reads := t.reads + 1 }
  | some b => .ok b { t with
      reads := t.reads + 1
      taken := if b.toInt < 0 then t.taken else t.taken ++ [b.setWidth 8] }

/-- `available()`. -/
def isAvailable : TransferM Bool := fun t =>
  match s.available t.availables with
  | none => .error .ioException { t with availables := t.availables + 1 }
  | some b => .ok b { t with availables := t.availables + 1 }

theorem isAvailable_of_none {t : Transfer} (h : s.available t.availables = none) :
    s.isAvailable t = .error .ioException { t with availables := t.availables + 1 } := by
  rw [isAvailable, h]

theorem isAvailable_of_some {t : Transfer} {b : Bool} (h : s.available t.availables = some b) :
    s.isAvailable t = .ok b { t with availables := t.availables + 1 } := by
  rw [isAvailable, h]

/-- `write(int)`. -/
def writeByte (b : BitVec 32) : TransferM Unit := fun t =>
  match s.write t.writes with
  | none => .error .ioException { t with writes := t.writes + 1 }
  | some () => .ok () { t with
      writes := t.writes + 1
      passed := t.passed ++ [b.setWidth 8] }

/-- `flush()`. -/
def flushAll : TransferM Unit := fun t =>
  match s.flush with
  | none => .error .ioException t
  | some () => .ok () t

end Stream

/-- The final fields of a handle. -/
structure Capabilities where
  read : Bool
  write : Bool
  synchronous : Bool

/-- The loop of `read`, by the number of bytes that are left to read. -/
def readLoop (s : Stream) : ℕ → BitVec 32 → BitVec 32 → TransferM (BitVec 32)
  | 0, _, numBytes => return numBytes
  | n + 1, buf, numBytes => do
    let b ← s.readByte
    if b.toInt < 0 then return numBytes
    onMemory (storeByte buf (b.setWidth 8))
    if ← s.isAvailable then readLoop s n (buf + 1#32) (numBytes + 1#32)
    else return numBytes + 1#32

def read (h : Capabilities) (s : Stream) (buf count : BitVec 32) : TransferM (BitVec 32) :=
  if h.read then
    catchIOException (readLoop s count.toInt.toNat buf 0#32) (onMemory (setErrno eio))
  else onMemory (setErrno einval)

/-- The loop of `write`, by the number of bytes that are left to write. -/
def writeLoop (s : Stream) : ℕ → BitVec 32 → BitVec 32 → TransferM (BitVec 32)
  | 0, _, numBytes => return numBytes
  | n + 1, buf, numBytes => do
    let b ← onMemory (loadI8 buf)
    s.writeByte (b.signExtend 32)
    writeLoop s n (buf + 1#32) (numBytes + 1#32)

/-- The block that `write` tries. -/
def writeBlock (h : Capabilities) (s : Stream) (n : ℕ) (buf numBytes : BitVec 32) :
    TransferM (BitVec 32) := do
  let numBytes ← writeLoop s n buf numBytes
  if h.synchronous then s.flushAll
  return numBytes

def write (h : Capabilities) (s : Stream) (buf count : BitVec 32) : TransferM (BitVec 32) :=
  if h.write then
    catchIOException (writeBlock h s count.toInt.toNat buf 0#32) (onMemory (setErrno eio))
  else onMemory (setErrno einval)

/-! ## What a result has to account for -/

/-- `errno` is set and no other byte is changed. -/
def OnlyErrno (m m' : Memory) : Prop :=
  ∃ cell, m'.errno = some cell ∧
    ∀ a, (a < cell.toNat ∨ cell.toNat + 4 ≤ a) → m'.byte a = m.byte a

/-- The result is the number of bytes that were taken from the stream and stored, or -1 if there
are none. -/
def ReadAccounts (m : Memory) (buf : BitVec 32) :
    EStateM.Result TransferThrowable Transfer (BitVec 32) → Prop
  | .ok r t =>
    (0 ≤ r.toInt ∧ (t.taken.length : ℤ) = r.toInt ∧ t.memory.Holds buf.toNat t.taken ∧
      ∀ a, (a < buf.toNat ∨ buf.toNat + t.taken.length ≤ a) → t.memory.byte a = m.byte a) ∨
    (r = -1#32 ∧ t.taken = [] ∧ OnlyErrno m t.memory)
  | .error _ _ => False

/-- The result is the number of bytes that were loaded and passed to the stream, or -1 if there
are none. -/
def WriteAccounts (m : Memory) (buf : BitVec 32) :
    EStateM.Result TransferThrowable Transfer (BitVec 32) → Prop
  | .ok r t =>
    ((t.passed.length : ℤ) = r.toInt ∧ m.Holds buf.toNat t.passed ∧
      ∀ a, t.memory.byte a = m.byte a) ∨
    (r = -1#32 ∧ t.passed = [] ∧ OnlyErrno m t.memory)
  | .error _ _ => False

/-! ## When it does -/

/-- What holds for each step that the steps before it lead to, from step `i` on. -/
def EachReached (goesOn good : ℕ → Prop) (n i : ℕ) : Prop :=
  ∀ k, i ≤ k → k < n → (∀ j, i ≤ j → j < k → goesOn j) → good k

section reached

variable {goesOn good : ℕ → Prop} {n i : ℕ}

theorem eachReached_of_le (h : n ≤ i) : EachReached goesOn good n i := by
  intro k hik hkn
  omega

/-- The first step is reached, and from it the others if it goes on. -/
theorem eachReached_iff (h : i < n) :
    EachReached goesOn good n i ↔ good i ∧ (goesOn i → EachReached goesOn good n (i + 1)) := by
  constructor
  · intro hall
    refine ⟨hall i le_rfl h fun j hj hj' => by omega, fun hi k hk hkn hbefore => ?_⟩
    apply hall k (by omega) hkn
    intro j hj hjk
    rcases hj.eq_or_lt with rfl | hlt
    · exact hi
    · exact hbefore j hlt hjk
  · rintro ⟨hgood, hrest⟩ k hk hkn hbefore
    rcases hk.eq_or_lt with rfl | hlt
    · exact hgood
    · exact hrest (hbefore i le_rfl hlt) k hlt hkn fun j hj hjk => hbefore j (by omega) hjk

end reached

/-- The `i`-th byte is read, and `available()` returns true. -/
def Stream.Continues (s : Stream) (i : ℕ) : Prop :=
  (∃ b, s.read i = some b ∧ 0 ≤ b.toInt) ∧ s.available i = some true

/-- An exception of `read()` comes before any byte is taken, and with a byte that is taken there is
none and the byte has its place. -/
def Stream.ReadsCleanly (s : Stream) (m : Memory) (buf : BitVec 32) (i : ℕ) : Prop :=
  (s.read i = none → i = 0) ∧
    ∀ b, s.read i = some b → 0 ≤ b.toInt →
      m.Mapped (buf + BitVec.ofNat 32 i).toNat ∧ s.available i ≠ none

/-- The byte that is to be written is there, and an exception of `write(int)` comes before any byte
is passed. -/
def Stream.WritesCleanly (s : Stream) (m : Memory) (buf : BitVec 32) (i : ℕ) : Prop :=
  m.Mapped (buf + BitVec.ofNat 32 i).toNat ∧ (s.write i = none → i = 0)

/-! ## The error number -/

theorem errnoCell_pages {m m' : Memory} {cell : BitVec 32} (h : errnoCell m = .ok cell m') :
    m'.pages = m.pages := by
  simp only [errnoCell, bind, EStateM.bind, get, getThe, MonadStateOf.get, EStateM.get] at h
  cases herrno : m.errno with
  | none =>
      rw [herrno] at h
      cases h
      rfl
  | some c =>
      rw [herrno] at h
      cases h
      rfl

theorem setErrno_onlyErrno {m : Memory} (h : m.ErrnoReady) (value : BitVec 32) :
    ∃ m', setErrno value m = .ok (-1#32) m' ∧ OnlyErrno m m' := by
  obtain ⟨cell, m₁, hcell, herrno, hm, hp⟩ := h
  have hp' : InPage cell.toNat (leBytes 4 value).length := by simpa using hp
  have hstore : storeBytes cell (leBytes 4 value) m₁ =
      .ok () (m₁.write cell.toNat (leBytes 4 value)) := storeBytes_ok hm hp'
  refine ⟨m₁.write cell.toNat (leBytes 4 value), ?_, cell, herrno, fun a ha => ?_⟩
  · simp only [setErrno, bind, EStateM.bind, hcell, storeInt, hstore]
    rfl
  · rw [byte_write hm hp', if_neg (by rw [length_leBytes]; omega)]
    exact byte_congr (errnoCell_pages hcell) a

/-- Whether it can be set or not, the error number is not the number of bytes. -/
theorem onMemory_setErrno_cases (value : BitVec 32) (t : Transfer) :
    (∃ m', onMemory (setErrno value) t = .ok (-1#32) { t with memory := m' }) ∨
      ∃ e t', onMemory (setErrno value) t = .error e t' := by
  unfold onMemory
  cases hset : setErrno value t.memory with
  | ok r m' =>
      left
      have hr : r = -1#32 := by
        simp only [setErrno, bind, EStateM.bind] at hset
        cases hcell : errnoCell t.memory with
        | ok cell m₁ =>
            rw [hcell] at hset
            simp only at hset
            cases hstore : storeInt cell value m₁ with
            | ok u m₂ =>
                rw [hstore] at hset
                cases hset
                rfl
            | error e m₂ =>
                rw [hstore] at hset
                cases hset
        | error e m₁ =>
            rw [hcell] at hset
            cases hset
      exact ⟨m', by rw [hr]⟩
  | error e m' => exact .inr ⟨_, _, rfl⟩

section errors

variable {m : Memory} {t : Transfer} (buf value : BitVec 32)

theorem readAccounts_setErrno_iff (hm : m.ErrnoReady) (ht : t.taken = [] → t.memory = m) :
    ReadAccounts m buf (onMemory (setErrno value) t) ↔ t.taken = [] := by
  constructor
  · intro h
    rcases onMemory_setErrno_cases value t with ⟨m', hset⟩ | ⟨e, t', hset⟩
    · rw [hset] at h
      rcases h with ⟨hnonneg, -⟩ | ⟨-, hnone, -⟩
      · exact absurd hnonneg (by decide)
      · exact hnone
    · rw [hset] at h
      exact h.elim
  · intro hnone
    obtain ⟨m', hset, honly⟩ := setErrno_onlyErrno hm value
    rw [onMemory, ht hnone, hset]
    exact .inr ⟨rfl, hnone, honly⟩

theorem writeAccounts_setErrno_iff (hm : m.ErrnoReady) (ht : t.memory = m) :
    WriteAccounts m buf (onMemory (setErrno value) t) ↔ t.passed = [] := by
  constructor
  · intro h
    rcases onMemory_setErrno_cases value t with ⟨m', hset⟩ | ⟨e, t', hset⟩
    · rw [hset] at h
      rcases h with ⟨hlength, -⟩ | ⟨-, hnone, -⟩
      · have hneg : (-1#32).toInt = -1 := by decide
        rw [hneg] at hlength
        omega
      · exact hnone
    · rw [hset] at h
      exact h.elim
  · intro hnone
    obtain ⟨m', hset, honly⟩ := setErrno_onlyErrno hm value
    rw [onMemory, ht, hset]
    exact .inr ⟨rfl, hnone, honly⟩

end errors

/-! ## Reading -/

/-- After `i` rounds of the loop of `read`. -/
structure ReadInv (m : Memory) (buf : BitVec 32) (i : ℕ) (t : Transfer) : Prop where
  reads : t.reads = i
  availables : t.availables = i
  length : t.taken.length = i
  holds : t.memory.Holds buf.toNat t.taken
  outside : ∀ a, (a < buf.toNat ∨ buf.toNat + i ≤ a) → t.memory.byte a = m.byte a
  mapped : ∀ a, t.memory.Mapped a ↔ m.Mapped a
  address : (buf + BitVec.ofNat 32 i).toNat = buf.toNat + i
  untouched : i = 0 → t.memory = m

theorem readInv_start (m : Memory) (buf : BitVec 32) : ReadInv m buf 0 (.start m) where
  reads := rfl
  availables := rfl
  length := rfl
  holds := by simp [Holds, Transfer.start]
  outside := fun _ _ => rfl
  mapped := fun _ => Iff.rfl
  address := by simp
  untouched := fun _ => rfl

theorem add_ofNat_succ (buf : BitVec 32) (i : ℕ) :
    buf + BitVec.ofNat 32 i + 1#32 = buf + BitVec.ofNat 32 (i + 1) := by
  rw [BitVec.add_assoc, BitVec.ofNat_add]

theorem holds_append_write {m : Memory} {a : ℕ} {bs : List (BitVec 8)} (c : BitVec 8)
    (h : m.Holds a bs) (hm : m.Mapped (a + bs.length)) :
    (m.write (a + bs.length) [c]).Holds a (bs ++ [c]) := by
  intro j hj
  rw [List.length_append, List.length_singleton] at hj
  rw [byte_write hm (inPage_one _)]
  rcases (Nat.lt_succ_iff.mp hj).eq_or_lt with rfl | hlt
  · simp
  · rw [if_neg (by omega), List.getElem?_append_left hlt]
    exact h j hlt

theorem onMemory_storeByte {t : Transfer} {addr : BitVec 32} (b : BitVec 8)
    (hm : t.memory.Mapped addr.toNat) :
    onMemory (storeByte addr b) t = .ok () { t with memory := t.memory.write addr.toNat [b] } := by
  rw [onMemory, storeByte_ok b hm]

theorem onMemory_storeByte_of_not_mapped {t : Transfer} {addr : BitVec 32} (b : BitVec 8)
    (hm : ¬ t.memory.Mapped addr.toNat) :
    onMemory (storeByte addr b) t = .error (.memory (.segmentationFault addr)) t := by
  rw [onMemory, storeByte, storeBytes_of_not_mapped _ hm]

section read

variable {m : Memory} {buf : BitVec 32} {i : ℕ} {t : Transfer} (s : Stream)

/-- A byte has been taken and stored. -/
theorem ReadInv.step (h : ReadInv m buf i t) (hm : m.Mapped (buf + BitVec.ofNat 32 i).toNat)
    (c : BitVec 8) :
    ReadInv m buf (i + 1) { t with
      memory := t.memory.write (buf + BitVec.ofNat 32 i).toNat [c]
      reads := t.reads + 1
      availables := t.availables + 1
      taken := t.taken ++ [c] } where
  reads := by rw [h.reads]
  availables := by rw [h.availables]
  length := by rw [List.length_append, h.length, List.length_singleton]
  holds := by
    have hlast : t.memory.Mapped (buf.toNat + t.taken.length) := by
      rw [h.length, ← h.address]
      exact (h.mapped _).mpr hm
    rw [h.address, ← h.length]
    exact holds_append_write c h.holds hlast
  outside := by
    intro a ha
    have hm' := (h.mapped _).mpr hm
    rw [byte_write hm' (inPage_one _), if_neg (by rw [h.address, List.length_singleton]; omega)]
    exact h.outside a (by omega)
  mapped := fun a => (mapped_write ..).trans (h.mapped a)
  address := by
    rw [← add_ofNat_succ, toNat_succ_of_mapped hm, h.address, Nat.add_assoc]
  untouched := fun hzero => absurd hzero (Nat.succ_ne_zero i)

/-- The loop ends, and its result is the number of the bytes. -/
theorem ReadInv.accounts (h : ReadInv m buf i t) (hi : i < 2 ^ 31) :
    ReadAccounts m buf (.ok (BitVec.ofNat 32 i) t) := by
  have hint : (BitVec.ofNat 32 i).toInt = i := by
    have hnat : (BitVec.ofNat 32 i).toNat = i := by
      rw [BitVec.toNat_ofNat]
      omega
    rw [BitVec.toInt_eq_toNat_of_lt (by omega), hnat]
  refine .inl ⟨by omega, by rw [h.length, hint], h.holds, ?_⟩
  rw [h.length]
  exact h.outside

/-- The rounds from `i` on account for their bytes exactly if each of them that is reached is
clean. -/
theorem readLoop_accounts_iff (hm : m.ErrnoReady) (n : ℕ) (hn : i + n < 2 ^ 31)
    (h : ReadInv m buf i t) :
    ReadAccounts m buf (catchIOException
        (readLoop s n (buf + BitVec.ofNat 32 i) (BitVec.ofNat 32 i)) (onMemory (setErrno eio)) t) ↔
      EachReached s.Continues (s.ReadsCleanly m buf) (i + n) i := by
  induction n generalizing i t with
  | zero => exact iff_of_true (h.accounts (by omega)) (eachReached_of_le le_rfl)
  | succ n ih =>
      rw [eachReached_iff (by omega : i < i + (n + 1))]
      have hread := h.reads
      have hnone : t.taken = [] ↔ i = 0 := by rw [← h.length, List.length_eq_zero_iff]
      rw [readLoop]
      cases hbyte : s.read i with
      | none =>
          -- the exception of `read()`
          have hio : s.readByte t = .error .ioException { t with reads := t.reads + 1 } := by
            simp only [Stream.readByte, hread, hbyte]
          rw [catchIOException_bind_io hio]
          refine (readAccounts_setErrno_iff (t := { t with reads := t.reads + 1 }) buf eio hm
            fun ht => h.untouched (hnone.mp ht)).trans ?_
          simp [hnone, Stream.ReadsCleanly, Stream.Continues, hbyte]
      | some b =>
          have hok : s.readByte t = .ok b { t with
              reads := t.reads + 1
              taken := if b.toInt < 0 then t.taken else t.taken ++ [b.setWidth 8] } := by
            simp only [Stream.readByte, hread, hbyte]
          rw [catchIOException_bind_ok hok]
          by_cases hend : b.toInt < 0
          · -- the end of the file
            simp only [hend, if_true]
            rw [catchIOException_pure]
            refine iff_of_true (h.accounts (by omega))
              ⟨⟨by simp [hbyte], fun b' hb' hpos => ?_⟩, ?_⟩
            · rw [hbyte] at hb'
              cases hb'
              omega
            · rintro ⟨⟨b', hb', hpos⟩, -⟩
              rw [hbyte] at hb'
              cases hb'
              omega
          · simp only [hend, if_false]
            have hpos : 0 ≤ b.toInt := not_lt.mp hend
            have hclean : s.ReadsCleanly m buf i ↔
                m.Mapped (buf + BitVec.ofNat 32 i).toNat ∧ s.available i ≠ none := by
              simp [Stream.ReadsCleanly, hbyte, hpos]
            have hcontinues : s.Continues i ↔ s.available i = some true := by
              simp [Stream.Continues, hbyte, hpos]
            rw [hclean, hcontinues]
            by_cases hmap : m.Mapped (buf + BitVec.ofNat 32 i).toNat
            · have hstep := h.step hmap (b.setWidth 8)
              have hstore := onMemory_storeByte (t := { t with
                reads := t.reads + 1
                taken := t.taken ++ [b.setWidth 8] }) (b.setWidth 8) ((h.mapped _).mpr hmap)
              rw [catchIOException_bind_ok hstore]
              cases havail : s.available i with
              | none =>
                  -- the exception of `available()`, with a byte taken
                  have hio := Stream.isAvailable_of_none s (t := { t with
                    memory := t.memory.write (buf + BitVec.ofNat 32 i).toNat [b.setWidth 8]
                    reads := t.reads + 1
                    taken := t.taken ++ [b.setWidth 8] }) (h.availables ▸ havail)
                  rw [catchIOException_bind_io hio]
                  refine (readAccounts_setErrno_iff (t := { t with
                    memory := t.memory.write (buf + BitVec.ofNat 32 i).toNat [b.setWidth 8]
                    reads := t.reads + 1
                    availables := t.availables + 1
                    taken := t.taken ++ [b.setWidth 8] }) buf eio hm (by simp)).trans ?_
                  simp
              | some more =>
                  have hok := Stream.isAvailable_of_some s (t := { t with
                    memory := t.memory.write (buf + BitVec.ofNat 32 i).toNat [b.setWidth 8]
                    reads := t.reads + 1
                    taken := t.taken ++ [b.setWidth 8] }) (h.availables ▸ havail)
                  rw [catchIOException_bind_ok hok, add_ofNat_succ, ← BitVec.ofNat_add]
                  cases more with
                  | false =>
                      simp only [Bool.false_eq_true, if_false]
                      rw [catchIOException_pure]
                      exact iff_of_true (hstep.accounts (by omega)) ⟨⟨hmap, by simp⟩, by simp⟩
                  | true =>
                      simp only [if_true]
                      have hsum : i + 1 + n = i + (n + 1) := by omega
                      refine (ih (by omega) hstep).trans ?_
                      rw [hsum]
                      exact ⟨fun hrest => ⟨⟨hmap, by simp⟩, fun _ => hrest⟩,
                        fun hall => hall.2 trivial⟩
            · have hfault := onMemory_storeByte_of_not_mapped (t := { t with
                reads := t.reads + 1
                taken := t.taken ++ [b.setWidth 8] }) (b.setWidth 8) (mt (h.mapped _).mp hmap)
              rw [catchIOException_bind_memory hfault]
              exact iff_of_false not_false fun hgood => hmap hgood.1.1

end read

/-! ## Writing -/

/-- After `i` rounds of the loop of `write`. -/
structure WriteInv (m : Memory) (buf : BitVec 32) (i : ℕ) (t : Transfer) : Prop where
  writes : t.writes = i
  length : t.passed.length = i
  holds : m.Holds buf.toNat t.passed
  memory : t.memory = m
  address : (buf + BitVec.ofNat 32 i).toNat = buf.toNat + i

theorem writeInv_start (m : Memory) (buf : BitVec 32) : WriteInv m buf 0 (.start m) where
  writes := rfl
  length := rfl
  holds := by simp [Holds, Transfer.start]
  memory := rfl
  address := by simp

theorem loadI8_of_mapped {m : Memory} {addr : BitVec 32} (hm : m.Mapped addr.toNat) :
    ∃ b, loadI8 addr m = .ok b m ∧ m.byte addr.toNat = some b := by
  obtain ⟨b, hb⟩ := Option.isSome_iff_exists.mp hm
  have hholds : m.Holds addr.toNat [b] := by
    intro j hj
    obtain rfl : j = 0 := by simpa using hj
    simpa using hb
  have hload := loadBytes_ok (by simp) hholds (inPage_one _)
  refine ⟨b, ?_, hb⟩
  rw [List.length_singleton] at hload
  simp only [loadI8, bind, EStateM.bind, hload]
  simp [ofLeBytes, pure, EStateM.pure]

theorem onMemory_loadI8_of_not_mapped {t : Transfer} {addr : BitVec 32}
    (hm : ¬ t.memory.Mapped addr.toNat) :
    onMemory (loadI8 addr) t = .error (.memory (.segmentationFault addr)) t := by
  simp only [onMemory, loadI8, bind, EStateM.bind, loadBytes_of_not_mapped 1 hm]

theorem setWidth_signExtend (c : BitVec 8) : (c.signExtend 32).setWidth 8 = c := by
  apply BitVec.eq_of_getLsbD_eq
  intro j hj
  rw [BitVec.getLsbD_setWidth, BitVec.getLsbD_signExtend]
  simp [hj, hj.trans (by decide : 8 < 32)]

section write

variable {m : Memory} {buf : BitVec 32} {i : ℕ} {t : Transfer} (h : Capabilities) (s : Stream)

/-- A byte has been loaded and passed. -/
theorem WriteInv.step (hinv : WriteInv m buf i t) {c : BitVec 8}
    (hc : m.byte (buf + BitVec.ofNat 32 i).toNat = some c) :
    WriteInv m buf (i + 1) { t with
      writes := t.writes + 1
      passed := t.passed ++ [c] } where
  writes := by rw [hinv.writes]
  length := by rw [List.length_append, hinv.length, List.length_singleton]
  holds := by
    intro j hj
    rw [List.length_append, List.length_singleton, hinv.length] at hj
    rcases (Nat.lt_succ_iff.mp hj).eq_or_lt with rfl | hlt
    · rw [← hinv.address, hc, List.getElem?_append_right hinv.length.le, hinv.length]
      simp
    · rw [List.getElem?_append_left (hinv.length ▸ hlt)]
      exact hinv.holds j (hinv.length ▸ hlt)
  memory := hinv.memory
  address := by
    have hmap : m.Mapped (buf + BitVec.ofNat 32 i).toNat := by rw [Mapped, hc]; rfl
    rw [← add_ofNat_succ, toNat_succ_of_mapped hmap, hinv.address, Nat.add_assoc]

theorem WriteInv.accounts (hinv : WriteInv m buf i t) (hi : i < 2 ^ 31) :
    WriteAccounts m buf (.ok (BitVec.ofNat 32 i) t) := by
  have hint : (BitVec.ofNat 32 i).toInt = i := by
    have hnat : (BitVec.ofNat 32 i).toNat = i := by
      rw [BitVec.toNat_ofNat]
      omega
    rw [BitVec.toInt_eq_toNat_of_lt (by omega), hnat]
  exact .inl ⟨by rw [hinv.length, hint], hinv.holds, fun a => by rw [hinv.memory]⟩

/-- `flush()` throws after all bytes have been passed. -/
def FlushFails (n i : ℕ) : Prop :=
  h.synchronous = true ∧ s.flush = none ∧ ∀ j, i ≤ j → j < n → s.write j = some ()

theorem writeBlock_zero (buf numBytes : BitVec 32) :
    writeBlock h s 0 buf numBytes =
      if h.synchronous then (do s.flushAll; return numBytes) else return numBytes := by
  cases hsync : h.synchronous <;> simp [writeBlock, writeLoop, hsync]

theorem writeBlock_succ (n : ℕ) (buf numBytes : BitVec 32) :
    writeBlock h s (n + 1) buf numBytes = (do
      let b ← onMemory (loadI8 buf)
      s.writeByte (b.signExtend 32)
      writeBlock h s n (buf + 1#32) (numBytes + 1#32)) := by
  simp only [writeBlock, writeLoop, bind_assoc]

/-- The rounds from `i` on account for their bytes exactly if each of them that is reached is
clean, and `flush()` does not throw with bytes passed. -/
theorem writeBlock_accounts_iff (hm : m.ErrnoReady) (n : ℕ) (hn : i + n < 2 ^ 31)
    (hinv : WriteInv m buf i t) :
    WriteAccounts m buf (catchIOException
        (writeBlock h s n (buf + BitVec.ofNat 32 i) (BitVec.ofNat 32 i)) (onMemory (setErrno eio))
          t) ↔
      EachReached (fun j => s.write j = some ()) (s.WritesCleanly m buf) (i + n) i ∧
        (FlushFails h s (i + n) i → i + n = 0) := by
  induction n generalizing i t with
  | zero =>
      have hacc := hinv.accounts (by omega)
      have hreached :
          EachReached (fun j => s.write j = some ()) (s.WritesCleanly m buf) (i + 0) i :=
        eachReached_of_le le_rfl
      have hfails : FlushFails h s (i + 0) i ↔ h.synchronous = true ∧ s.flush = none := by
        refine ⟨fun hf => ⟨hf.1, hf.2.1⟩, fun hf => ⟨hf.1, hf.2, fun j hj hj' => ?_⟩⟩
        omega
      rw [and_iff_right hreached, hfails, writeBlock_zero]
      cases hsync : h.synchronous with
      | false => exact iff_of_true hacc (by simp)
      | true =>
          simp only [if_true]
          cases hflush : s.flush with
          | none =>
              have hio : s.flushAll t = .error .ioException t := by
                simp only [Stream.flushAll, hflush]
              rw [catchIOException_bind_io hio]
              refine (writeAccounts_setErrno_iff buf eio hm hinv.memory).trans ?_
              rw [← List.length_eq_zero_iff, hinv.length]
              simp
          | some u =>
              have hok : s.flushAll t = .ok () t := by simp only [Stream.flushAll, hflush]
              rw [catchIOException_bind_ok hok, catchIOException_pure]
              exact iff_of_true hacc (by simp)
  | succ n ih =>
      rw [writeBlock_succ, eachReached_iff (by omega : i < i + (n + 1))]
      by_cases hmap : m.Mapped (buf + BitVec.ofNat 32 i).toNat
      · obtain ⟨c, hload, hc⟩ := loadI8_of_mapped hmap
        have hloaded : onMemory (loadI8 (buf + BitVec.ofNat 32 i)) t = .ok c t := by
          simp only [onMemory, hinv.memory, hload]
          rw [← hinv.memory]
        have hclean : s.WritesCleanly m buf i ↔ (s.write i = none → i = 0) := by
          rw [Stream.WritesCleanly, and_iff_right hmap]
        rw [catchIOException_bind_ok hloaded, hclean]
        cases hwrite : s.write i with
        | none =>
            -- the exception of `write(int)`
            have hio : s.writeByte (c.signExtend 32) t =
                .error .ioException { t with writes := t.writes + 1 } := by
              simp only [Stream.writeByte, hinv.writes, hwrite]
            have hnofail : ¬ FlushFails h s (i + (n + 1)) i := by
              rintro ⟨-, -, hall⟩
              have hi := hall i le_rfl (by omega)
              rw [hwrite] at hi
              cases hi
            rw [catchIOException_bind_io hio]
            refine (writeAccounts_setErrno_iff (t := { t with writes := t.writes + 1 }) buf eio hm
              hinv.memory).trans ?_
            rw [← List.length_eq_zero_iff, hinv.length]
            simp [hnofail]
        | some u =>
            have hstep := hinv.step hc
            have hok : s.writeByte (c.signExtend 32) t = .ok () { t with
                writes := t.writes + 1
                passed := t.passed ++ [c] } := by
              simp only [Stream.writeByte, hinv.writes, hwrite, setWidth_signExtend]
            have hsum : i + 1 + n = i + (n + 1) := by omega
            have hfails :
                FlushFails h s (i + (n + 1)) i ↔ FlushFails h s (i + (n + 1)) (i + 1) := by
              unfold FlushFails
              refine and_congr_right fun _ => and_congr_right fun _ => ⟨fun hall j hj hj' =>
                hall j (by omega) hj', fun hall j hj hj' => ?_⟩
              rcases hj.eq_or_lt with rfl | hlt
              · exact hwrite
              · exact hall j hlt hj'
            rw [catchIOException_bind_ok hok, add_ofNat_succ, ← BitVec.ofNat_add, hfails]
            refine (ih (by omega) hstep).trans ?_
            rw [hsum]
            simp
      · have hfault := onMemory_loadI8_of_not_mapped (hinv.memory ▸ hmap)
        rw [catchIOException_bind_memory hfault]
        exact iff_of_false not_false fun hgood => hmap hgood.1.1.1

end write

/-! ## Both directions -/

section transfers

variable {m : Memory} (hm : m.ErrnoReady) (h : Capabilities) (s : Stream) (buf count : BitVec 32)

theorem count_lt : 0 + count.toInt.toNat < 2 ^ 31 := by
  have := count.toInt_lt
  omega

include hm

theorem read_accounts_iff :
    ReadAccounts m buf (read h s buf count (.start m)) ↔
      (h.read = true → EachReached s.Continues (s.ReadsCleanly m buf) count.toInt.toNat 0) := by
  unfold read
  cases hread : h.read with
  | false =>
      simp only [Bool.false_eq_true, if_false, false_implies, iff_true]
      exact (readAccounts_setErrno_iff (t := .start m) buf einval hm fun _ => rfl).mpr rfl
  | true =>
      have hiff := readLoop_accounts_iff s hm count.toInt.toNat (count_lt count)
        (readInv_start m buf)
      simp only [BitVec.add_zero, Nat.zero_add] at hiff
      simp only [if_true, true_implies]
      exact hiff

theorem write_accounts_iff :
    WriteAccounts m buf (write h s buf count (.start m)) ↔
      (h.write = true →
        EachReached (fun j => s.write j = some ()) (s.WritesCleanly m buf) count.toInt.toNat 0 ∧
          (FlushFails h s count.toInt.toNat 0 → count.toInt ≤ 0)) := by
  unfold write
  cases hwrite : h.write with
  | false =>
      simp only [Bool.false_eq_true, if_false, false_implies, iff_true]
      exact (writeAccounts_setErrno_iff (t := .start m) buf einval hm rfl).mpr rfl
  | true =>
      have hiff := writeBlock_accounts_iff h s hm count.toInt.toNat (count_lt count)
        (writeInv_start m buf)
      simp only [BitVec.add_zero, Nat.zero_add, Int.toNat_eq_zero] at hiff
      simp only [if_true, true_implies]
      exact hiff

/-- A transfer accounts for every byte exactly if no `IOException` strikes after a byte has been
moved, and every byte that is moved has its place in the memory. -/
theorem transfers_account_iff :
    (ReadAccounts m buf (read h s buf count (.start m)) ↔
      (h.read = true → EachReached s.Continues (s.ReadsCleanly m buf) count.toInt.toNat 0)) ∧
    (WriteAccounts m buf (write h s buf count (.start m)) ↔
      (h.write = true →
        EachReached (fun j => s.write j = some ()) (s.WritesCleanly m buf) count.toInt.toNat 0 ∧
          (FlushFails h s count.toInt.toNat 0 → count.toInt ≤ 0))) :=
  ⟨read_accounts_iff hm h s buf count, write_accounts_iff hm h s buf count⟩

end transfers

/-- A stream that gives one byte, and then the end of the file or an exception. -/
def oneByte (last : Option (BitVec 32)) : Stream where
  read i := if i = 0 then some 65#32 else last
  available _ := some true
  write _ := some ()
  flush := some ()

theorem transfers_account_oneByte :
    ReadAccounts Memory.initial 16#32 (read ⟨true, false, false⟩ (oneByte (some (-1#32))) 16#32 4#32
      (.start Memory.initial)) := by
  refine (transfers_account_iff FileTable.errnoReady_initial ⟨true, false, false⟩
    (oneByte (some (-1#32))) 16#32 4#32).1.mpr fun _ k _ _ _ => ⟨fun h => ?_, fun b hb hpos => ?_⟩
  · by_contra hk
    simp [oneByte, hk] at h
  · by_cases hk : k = 0
    · subst hk
      exact ⟨(rfl : (Memory.initial.byte 16).isSome = true), by simp [oneByte]⟩
    · simp only [oneByte, hk, if_false, Option.some.injEq] at hb
      subst hb
      exact absurd hpos (by decide)

/-- The byte has been taken from the stream and stored, but the result is -1. -/
theorem not_readAccounts_oneByte :
    ¬ ReadAccounts Memory.initial 16#32 (read ⟨true, false, false⟩ (oneByte none) 16#32 2#32
      (.start Memory.initial)) := by
  rw [read_accounts_iff FileTable.errnoReady_initial]
  intro h
  have hcontinues : (oneByte none).Continues 0 := ⟨⟨65#32, rfl, by decide⟩, rfl⟩
  have hclean := h rfl 1 (by decide) (by decide) fun j _ hj => by
    obtain rfl : j = 0 := by omega
    exact hcontinues
  exact absurd (hclean.1 rfl) (by decide)

end Llxvm.Runtime.FileHandle
