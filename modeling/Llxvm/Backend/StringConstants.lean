import Llxvm.Backend.StaticConstant
import Llxvm.Jvm.Operands

/-!
# String initialisers

A byte array passes through the escaper, the assembler, the literal of the class file and one
of two overloads of `Memory.pack`.  The escaped path reproduces the bytes exactly if they are
UTF-8; the `\u00XX` path always does.
-/

namespace Llxvm.Backend

open Llxvm.Jvm Llxvm.Runtime Utf

/-! ## The assembler -/

/-- The value of a hexadecimal digit. -/
def hexValue (c : Char) : Option ℕ :=
  if '0' ≤ c ∧ c ≤ '9' then some (c.toNat - 0x30)
  else if 'A' ≤ c ∧ c ≤ 'F' then some (c.toNat - 0x37)
  else if 'a' ≤ c ∧ c ≤ 'f' then some (c.toNat - 0x57)
  else none

/-- The escapes of one letter, and the characters they stand for. -/
def letterEscapes : List (Char × Char) :=
  [('\\', '\\'), ('b', '\x08'), ('t', '\t'), ('n', '\n'), ('f', '\x0c'), ('r', '\r'),
    ('\"', '\"'), ('\'', '\'')]

/-- The code units that the text between two quotes denotes. -/
inductive Denotes : List Char → List (BitVec 16) → Prop where
  | nil : Denotes [] []
  | char {c : Char} {cs : List Char} {us : List (BitVec 16)}
      (hc : c ∉ ['\\', '\"', '\n', '\r']) (h : Denotes cs us) :
      Denotes (c :: cs) (utf16Char c ++ us)
  | letter {e c : Char} {cs : List Char} {us : List (BitVec 16)}
      (he : (e, c) ∈ letterEscapes) (h : Denotes cs us) :
      Denotes ('\\' :: e :: cs) (utf16Char c ++ us)
  | unicode {x₃ x₂ x₁ x₀ : Char} {n₃ n₂ n₁ n₀ : ℕ} {cs : List Char} {us : List (BitVec 16)}
      (h₃ : hexValue x₃ = some n₃) (h₂ : hexValue x₂ = some n₂) (h₁ : hexValue x₁ = some n₁)
      (h₀ : hexValue x₀ = some n₀) (h : Denotes cs us) :
      Denotes ('\\' :: 'u' :: x₃ :: x₂ :: x₁ :: x₀ :: cs)
        (BitVec.ofNat 16 (0x1000 * n₃ + 0x100 * n₂ + 0x10 * n₁ + n₀) :: us)

/-- The assembler reads UTF-8 and decodes the escapes, and the JVM encodes as UTF-8. -/
structure ReadsText (env : Env) : Prop where
  readString : ∀ {cs us}, Denotes cs us → env.readString (utf8 cs) = us
  getBytes : ∀ cs, env.getBytes (utf16 cs) = utf8 cs
  wellFormed : ∀ us, WellFormed (env.getBytes us)

/-- The units of an escape of one letter. -/
def escapeUnits (e : Char) : List (BitVec 16) :=
  match letterEscapes.lookup e with
  | some c => utf16Char c
  | none => []

/-- A reader of literals. -/
def readLiteral : List Char → List (BitVec 16)
  | [] => []
  | [c] => utf16Char c
  | c :: e :: cs =>
      if c = '\\' then
        if e = 'u' then
          match cs with
          | x₃ :: x₂ :: x₁ :: x₀ :: cs =>
              BitVec.ofNat 16 (0x1000 * (hexValue x₃).getD 0 + 0x100 * (hexValue x₂).getD 0 +
                0x10 * (hexValue x₁).getD 0 + (hexValue x₀).getD 0) :: readLiteral cs
          | _ => []
        else escapeUnits e ++ readLiteral cs
      else utf16Char c ++ readLiteral (e :: cs)

theorem readLiteral_denotes {cs : List Char} {us : List (BitVec 16)} (h : Denotes cs us) :
    readLiteral cs = us := by
  induction h with
  | nil => rfl
  | @char c cs us hc h ih =>
      have hne : c ≠ '\\' := fun heq => hc (by simp [heq])
      cases cs with
      | nil =>
          rw [readLiteral] at ih
          rw [readLiteral, ← ih, List.append_nil]
      | cons d cs =>
          rw [readLiteral.eq_def]
          simp only [if_neg hne, ih]
  | @letter e c cs us he h ih =>
      have hentry : ∀ p ∈ letterEscapes, p.1 ≠ 'u' ∧ escapeUnits p.1 = utf16Char p.2 := by decide
      obtain ⟨hu, hunits⟩ := hentry (e, c) he
      rw [readLiteral.eq_def]
      simp only [if_pos, if_neg hu, hunits, ih]
  | @unicode x₃ x₂ x₁ x₀ n₃ n₂ n₁ n₀ cs us h₃ h₂ h₁ h₀ h ih =>
      rw [readLiteral, if_pos rfl, if_pos rfl]
      simp only [h₃, h₂, h₁, h₀, Option.getD_some, ih]

/-- An environment that reads and writes UTF-8. -/
def utf8Env : Env :=
  { Env.plain with
    readString := fun text => readLiteral (decodeUtf8 text)
    getBytes := fun us => utf8 (decodeUtf16 us) }

theorem readsText_utf8Env : ReadsText utf8Env where
  readString h := by
    change readLiteral (decodeUtf8 (utf8 _)) = _
    rw [decodeUtf8_utf8, readLiteral_denotes h]
  getBytes cs := congrArg utf8 (decodeUtf16_utf16 cs)
  wellFormed us := ⟨_, rfl⟩

/-! ## The two escapers -/

theorem ascii_ne {c d : Char} (hc : c.toNat < 0x80) (hd : d.toNat < 0x80) (h : c ≠ d) :
    ascii c ≠ ascii d := by
  intro heq
  have hn := congrArg BitVec.toNat heq
  simp only [ascii, BitVec.toNat_ofNat] at hn
  exact h (Char.toNat_inj.mp (by omega))

/-- A byte of a character outside of ASCII is not escaped. -/
theorem escapeByte_of_le {b : BitVec 8} (h : 0x80 ≤ b.toNat) : escapeByte b = [b] := by
  have hne : ∀ d : BitVec 8, d.toNat < 0x80 → b ≠ d := by
    rintro d hd rfl
    omega
  unfold escapeByte
  rw [if_neg (hne _ (by decide)), if_neg (hne _ (by decide)), if_neg (hne _ (by decide)),
    if_neg (hne _ (by decide)), if_neg (hne _ (by decide)), if_neg (hne _ (by decide)),
    if_neg (hne _ (by decide)), if_neg (hne _ (by decide))]

/-- A character that is printed as it is. -/
theorem escapeByte_ascii {c : Char} (hc : c.toNat < 0x80) (h : ∀ p ∈ letterEscapes, c ≠ p.2) :
    escapeByte (ascii c) = [ascii c] := by
  have hne : ∀ p ∈ letterEscapes, ascii c ≠ ascii p.2 := by
    intro p hp
    have hsmall : ∀ p ∈ letterEscapes, p.2.toNat < 0x80 := by decide
    exact ascii_ne hc (hsmall p hp) (h p hp)
  unfold escapeByte
  rw [if_neg (hne ('\\', '\\') (by decide)), if_neg (by exact hne ('b', '\x08') (by decide)),
    if_neg (by exact hne ('t', '\t') (by decide)), if_neg (by exact hne ('n', '\n') (by decide)),
    if_neg (by exact hne ('f', '\x0c') (by decide)), if_neg (by exact hne ('r', '\r') (by decide)),
    if_neg (hne ('\"', '\"') (by decide)), if_neg (hne ('\'', '\'') (by decide))]

theorem escapeByte_letter :
    ∀ p ∈ letterEscapes, (utf8Char p.2).flatMap escapeByte = utf8 ['\\', p.1] := by
  decide

/-- The text of a character denotes it. -/
theorem denotes_escapeByte (c : Char) :
    ∃ text, (utf8Char c).flatMap escapeByte = utf8 text ∧
      ∀ cs us, Denotes cs us → Denotes (text ++ cs) (utf16Char c ++ us) := by
  by_cases hletter : ∃ p ∈ letterEscapes, c = p.2
  · obtain ⟨p, hp, rfl⟩ := hletter
    exact ⟨['\\', p.1], escapeByte_letter p hp, fun cs us h => .letter hp h⟩
  · push Not at hletter
    refine ⟨[c], ?_, fun cs us h => .char ?_ h⟩
    · rw [utf8_cons, utf8_nil, List.append_nil]
      by_cases hascii : c.toNat < 0x80
      · rw [utf8Char_of_lt hascii, List.flatMap_singleton, escapeByte_ascii hascii hletter]
      · have hsame : ∀ b ∈ utf8Char c, escapeByte b = [b] := fun b hb =>
          escapeByte_of_le (le_of_mem_utf8Char (by omega) hb)
        rw [List.flatMap_congr hsame, List.flatMap_singleton']
    · intro hmem
      simp only [List.mem_cons, List.not_mem_nil, or_false] at hmem
      rcases hmem with rfl | rfl | rfl | rfl
      · exact hletter ('\\', '\\') (by decide) rfl
      · exact hletter ('\"', '\"') (by decide) rfl
      · exact hletter ('n', '\n') (by decide) rfl
      · exact hletter ('r', '\r') (by decide) rfl

/-- The text of some characters denotes them. -/
theorem denotes_escape (cs : List Char) :
    ∃ text, (utf8 cs).flatMap escapeByte = utf8 text ∧ Denotes text (utf16 cs) := by
  induction cs with
  | nil => exact ⟨[], rfl, .nil⟩
  | cons c cs ih =>
      obtain ⟨head, hhead, hdenotes⟩ := denotes_escapeByte c
      obtain ⟨tail, htail, hrest⟩ := ih
      refine ⟨head ++ tail, ?_, hdenotes tail _ hrest⟩
      rw [utf8_cons, List.flatMap_append, hhead, htail, utf8_append]

def hexChar (n : ℕ) : Char := Char.ofNat (if n < 10 then 0x30 + n else 0x37 + n)

theorem hexdigit_spec : ∀ n < 16,
    [hexdigit (BitVec.ofNat 8 n)] = utf8Char (hexChar n) ∧ hexValue (hexChar n) = some n := by
  decide

/-- One byte of the `\\u00XX` path denotes itself. -/
theorem denotes_unicodeEscape (b : BitVec 8) :
    ∃ text, unicodeEscape b = utf8 text ∧
      ∀ cs us, Denotes cs us → Denotes (text ++ cs) (b.setWidth 16 :: us) := by
  have hlow := hexdigit_spec (b.toNat % 16) (Nat.mod_lt _ (by decide))
  have hhigh := hexdigit_spec (b.toNat / 16) (by omega)
  have hl : b &&& 0xf#8 = BitVec.ofNat 8 (b.toNat % 16) := by
    apply BitVec.eq_of_toNat_eq
    rw [BitVec.toNat_and, BitVec.toNat_ofNat, BitVec.toNat_ofNat]
    rw [Nat.mod_eq_of_lt (by omega : b.toNat % 16 < 2 ^ 8)]
    exact Nat.and_two_pow_sub_one_eq_mod _ 4
  have hh : b.sshiftRight 4 &&& 0xf#8 = BitVec.ofNat 8 (b.toNat / 16) := by
    revert b
    decide
  refine ⟨['\\', 'u', '0', '0', hexChar (b.toNat / 16), hexChar (b.toNat % 16)], ?_, ?_⟩
  · simp only [unicodeEscape, hl, hh, utf8_cons, utf8_nil, ← hhigh.1, ← hlow.1]
    rfl
  · intro cs us h
    have hunit : b.setWidth 16 = BitVec.ofNat 16
        (0x1000 * 0 + 0x100 * 0 + 0x10 * (b.toNat / 16) + b.toNat % 16) := by
      apply BitVec.eq_of_toNat_eq
      rw [BitVec.toNat_setWidth, BitVec.toNat_ofNat]
      congr 1
      omega
    rw [hunit]
    exact .unicode (by decide) (by decide) hhigh.2 hlow.2 h

theorem denotes_unicode (bs : List (BitVec 8)) :
    ∃ text, bs.flatMap unicodeEscape = utf8 text ∧ Denotes text (bs.map (BitVec.setWidth 16)) := by
  induction bs with
  | nil => exact ⟨[], rfl, .nil⟩
  | cons b bs ih =>
      obtain ⟨head, hhead, hdenotes⟩ := denotes_unicodeEscape b
      obtain ⟨tail, htail, hrest⟩ := ih
      refine ⟨head ++ tail, ?_, hdenotes tail _ hrest⟩
      rw [List.flatMap_cons, hhead, htail, utf8_append]

/-! ## Runs -/

section runs

variable {env : Env} {opts : GenerationOpts}

theorem run_printConstLoadString (hwide : ¬ opts.wideLdc) (str : List (BitVec 8)) (cstring : Bool)
    (c : Config) :
    run env (printConstLoadString opts str cstring) none c =
      .fall (c.push (.ref (.string (env.readString (literalText str cstring))))) := by
  simp only [printConstLoadString, ldcToken, if_neg hwide]
  rfl

theorem invoke_packString (addr : BitVec 32) (chars : List (BitVec 16)) :
    invoke env .packString [.int addr, .ref (.string chars)] =
      some (do return some (.int (← Memory.packString addr (env.getBytes chars)))) := rfl

theorem invoke_packChars (addr : BitVec 32) (chars : List (BitVec 16)) :
    invoke env .packChars [.int addr, .ref (.charArray chars)] =
      some (do return some (.int (← Memory.packChars addr chars))) := rfl

/-- The escaped path. -/
theorem run_packString (hwide : ¬ opts.wideLdc) (str : List (BitVec 8)) (c : Config)
    (a : BitVec 32) (s : List Val) :
    ExitsAs (run env (printStringConstant opts str true) none { c with stack := .int a :: s }) c s
      (Memory.packString a (env.getBytes (env.readString (literalText str true))) c.memory) := by
  rw [printStringConstant, run_append_of_fall (run_printConstLoadString hwide str true _)]
  exact run_invoke (invoke_packString a _) rfl c s

/-- The `\\u00XX` path. -/
theorem run_packChars (hwide : ¬ opts.wideLdc) (str : List (BitVec 8)) (c : Config)
    (a : BitVec 32) (s : List Val) :
    ExitsAs (run env (printStringConstant opts str false) none { c with stack := .int a :: s }) c s
      (Memory.packChars a (env.readString (literalText str false)) c.memory) := by
  rw [printStringConstant, run_append_of_fall (run_printConstLoadString hwide str false _)]
  exact run_invoke (invoke_packChars a _) rfl c s

/-- A wide `ldc` cannot load a string. -/
theorem run_wide (hwide : opts.wideLdc) (str : List (BitVec 8)) (cstring : Bool) (c : Config) :
    run env (printStringConstant opts str cstring) none c = .stuck := by
  simp only [printStringConstant, printConstLoadString, ldcToken, if_pos hwide, List.cons_append]
  rfl

end runs

/-! ## Reproduced bytes -/

/-- The address of the array is on the stack; its bytes get there and nowhere else, and the
first address after it is returned. -/
def StoresBytes (x : Exit) (c : Config) (a : BitVec 32) (bytes : List (BitVec 8)) : Prop :=
  ∃ m', x = .fall { c with
      stack := .int (a + BitVec.ofNat 32 bytes.length) :: c.stack, memory := m' } ∧
    m'.Holds a.toNat bytes ∧
    ∀ x, (x < a.toNat ∨ a.toNat + bytes.length ≤ x) → m'.byte x = c.memory.byte x

/-- The code of the constant stores its bytes, and where both paths apply they do the same. -/
structure Reproduces (env : Env) (opts : GenerationOpts) (w : Writer) (c : Config) (a : BitVec 32)
    (bytes : List (BitVec 8)) : Prop where
  stores : ∃ is, printStaticConstant opts (.string bytes) w = some (is, w) ∧
    StoresBytes (run env is none { c with stack := .int a :: c.stack }) c a bytes
  agree : isCString bytes →
    run env (printStringConstant opts bytes true) none { c with stack := .int a :: c.stack } =
      run env (printStringConstant opts bytes false) none { c with stack := .int a :: c.stack }

section reproduces

variable {env : Env} {opts : GenerationOpts} {w : Writer} {c : Config} {a : BitVec 32}
  {bytes : List (BitVec 8)}

/-- The bytes of a C string and its null. -/
theorem isCString_iff :
    isCString bytes ↔ bytes = bytes.dropLast ++ [0#8] ∧ 0#8 ∉ bytes.dropLast := by
  simp only [isCString, Bool.and_eq_true, beq_iff_eq, Bool.not_eq_true', List.contains_eq_mem,
    decide_eq_false_iff_not, and_congr_left_iff]
  intro _
  constructor
  · intro h
    exact (List.dropLast_append_getLast? _ h).symm
  · intro h
    rw [h]
    simp

/-- The cast to `byte` undoes the widening to `char`. -/
theorem map_cut (bytes : List (BitVec 8)) :
    (bytes.map (BitVec.setWidth 16)).map (BitVec.setWidth 8) = bytes := by
  rw [List.map_map]
  refine (List.map_congr_left fun b _ => ?_).trans (List.map_id _)
  exact BitVec.setWidth_setWidth_of_le b (by decide)

/-- Where the array is in mapped memory, the units of its bytes are stored as its bytes. -/
theorem packChars_ok (hm : ∀ i < bytes.length, c.memory.Mapped (a.toNat + i)) :
    ∃ m', Memory.packChars a (bytes.map (BitVec.setWidth 16)) c.memory =
        .ok (a + BitVec.ofNat 32 bytes.length) m' ∧ m'.Holds a.toNat bytes ∧
      ∀ x, (x < a.toNat ∨ a.toNat + bytes.length ≤ x) → m'.byte x = c.memory.byte x := by
  obtain ⟨m', hrun, hhold, -, -, hout⟩ := Memory.storeArray_ok hm
  refine ⟨m', ?_, hhold, hout⟩
  simp only [Memory.packChars, map_cut, List.length_map, bind, EStateM.bind, hrun]
  rfl

/-- A string without its null, packed as a string. -/
theorem packString_dropLast (hc : isCString bytes) :
    Memory.packString a bytes.dropLast = Memory.packChars a (bytes.map (BitVec.setWidth 16)) := by
  have hbytes := (isCString_iff.mp hc).1
  have hlen : bytes.length = bytes.dropLast.length + 1 := by
    conv_lhs => rw [hbytes]
    simp
  have haddr :
      a + BitVec.ofNat 32 bytes.dropLast.length + 1#32 = a + BitVec.ofNat 32 bytes.length := by
    rw [hlen, BitVec.add_assoc, BitVec.ofNat_add]
  rw [Memory.packString_eq, ← hbytes, Memory.packChars, map_cut, List.length_map, haddr]

/-- The escaped text of UTF-8 gives the string of its characters. -/
theorem getBytes_readString (ht : ReadsText env) (hutf : WellFormed bytes.dropLast) :
    env.getBytes (env.readString (literalText bytes true)) = bytes.dropLast := by
  obtain ⟨cs, hcs⟩ := hutf
  obtain ⟨text, htext, hdenotes⟩ := denotes_escape cs
  have hliteral : literalText bytes true = utf8 text := by
    rw [← htext, ← hcs]
    rfl
  rw [hliteral, ht.readString hdenotes, ht.getBytes, hcs]

theorem readString_unicode (ht : ReadsText env) :
    env.readString (literalText bytes false) = bytes.map (BitVec.setWidth 16) := by
  obtain ⟨text, htext, hdenotes⟩ := denotes_unicode bytes
  have hliteral : literalText bytes false = utf8 text := htext
  rw [hliteral, ht.readString hdenotes]

theorem printStaticConstant_string (bytes : List (BitVec 8)) (w : Writer) :
    printStaticConstant opts (.string bytes) w =
      some (printStringConstant opts bytes (isCString bytes), w) := by
  rw [printStaticConstant]
  rfl

/-- Bytes that are stored as a string are UTF-8. -/
theorem wellFormed_of_stores (ht : ReadsText env) (hwide : ¬ opts.wideLdc) (hc : isCString bytes)
    (hm : ∀ i < bytes.length, c.memory.Mapped (a.toNat + i))
    (hx : StoresBytes (run env (printStringConstant opts bytes true) none
      { c with stack := .int a :: c.stack }) c a bytes) : WellFormed bytes.dropLast := by
  obtain ⟨m', hfall, hhold, -⟩ := hx
  obtain ⟨cs, hcs⟩ := ht.wellFormed (env.readString (literalText bytes true))
  have hrun := @run_packString env _ hwide bytes c a c.stack
  rw [hfall, hcs, Memory.packString_eq] at hrun
  simp only [bind, EStateM.bind] at hrun
  cases hstore : Memory.storeArray a (utf8 cs ++ [0#8]) c.memory with
  | error e m =>
      rw [hstore] at hrun
      obtain ⟨c', hthrow, -⟩ := hrun
      cases hthrow
  | ok u m =>
      rw [hstore] at hrun
      cases u
      have hmapped := Memory.mapped_of_storeArray hstore
      obtain ⟨m₁, hstore₁, hhold₁, -⟩ := Memory.storeArray_ok hmapped
      rw [hstore] at hstore₁
      cases hstore₁
      simp only [pure, EStateM.pure, ExitsAs, Exit.fall.injEq, Config.mk.injEq, List.cons.injEq,
        Val.int.injEq, true_and, and_true] at hrun
      obtain ⟨haddr, rfl⟩ := hrun
      -- both lengths are below the size of the memory, so the returned addresses compare them
      have hlen : bytes.length = (utf8 cs ++ [0#8]).length := by
        have hbytes := congrArg List.length (isCString_iff.mp hc).1
        have hlast := (hm (bytes.length - 1) (by simp at hbytes; omega)).lt_memSize
        have hlast' := (hmapped (utf8 cs).length (by simp)).lt_memSize
        rw [BitVec.add_assoc, BitVec.add_right_inj] at haddr
        have hnat := congrArg BitVec.toNat haddr
        simp only [memSize, List.length_append, List.length_singleton, BitVec.toNat_add,
          BitVec.toNat_ofNat] at *
        omega
      have hsame := hhold.unique hhold₁ hlen
      exact ⟨cs, by rw [hsame, List.dropLast_concat]⟩

/-- A string initialiser reproduces its bytes exactly if `ldc` is not wide and a C string is
UTF-8. -/
theorem reproduces_iff (ht : ReadsText env)
    (hm : ∀ i < bytes.length, c.memory.Mapped (a.toNat + i)) :
    Reproduces env opts w c a bytes ↔
      ¬ opts.wideLdc ∧ (isCString bytes → WellFormed bytes.dropLast) := by
  constructor
  · intro h
    obtain ⟨is, hprint, hstores⟩ := h.stores
    rw [printStaticConstant_string] at hprint
    cases hprint
    have hwide : ¬ opts.wideLdc := by
      intro hwide
      rw [run_wide hwide] at hstores
      obtain ⟨m', hfall, -⟩ := hstores
      cases hfall
    refine ⟨hwide, fun hc => ?_⟩
    rw [hc] at hstores
    exact wellFormed_of_stores ht hwide hc hm hstores
  · rintro ⟨hwide, hutf⟩
    obtain ⟨m', hpack, hhold, hout⟩ := packChars_ok hm
    have hunicode := @run_packChars env _ hwide bytes c a c.stack
    rw [readString_unicode ht, hpack] at hunicode
    have hescaped : isCString bytes → run env (printStringConstant opts bytes true) none
        { c with stack := .int a :: c.stack } = run env (printStringConstant opts bytes false) none
          { c with stack := .int a :: c.stack } := by
      intro hc
      have hrun := @run_packString env _ hwide bytes c a c.stack
      rw [getBytes_readString ht (hutf hc), packString_dropLast hc, hpack] at hrun
      exact hrun.trans hunicode.symm
    refine ⟨⟨_, printStaticConstant_string bytes w, m', ?_, hhold, hout⟩, hescaped⟩
    cases hc : isCString bytes with
    | true => exact (hescaped hc).trans hunicode
    | false => exact hunicode

end reproduces

/-- The stack of a fresh memory, as the place of an array. -/
def stackConfig : Config := ⟨fun _ => none, [], Memory.initial⟩

theorem reproduces_greeting :
    Reproduces utf8Env ⟨false, false, false, false⟩ ⟨[], 0, [], 0, 0, none⟩ stackConfig
      0x3ffffff0#32 [0x48#8, 0xc3#8, 0xa9#8, 0x22#8, 0x0a#8, 0x00#8] :=
  (reproduces_iff readsText_utf8Env (by decide)).mpr ⟨by decide, by decide +kernel⟩

/-- An `é` of Latin-1. -/
theorem not_reproduces_latin :
    ¬ Reproduces utf8Env ⟨false, false, false, false⟩ ⟨[], 0, [], 0, 0, none⟩ stackConfig
      0x3ffffff0#32 [0xe9#8, 0x00#8] := by
  intro h
  obtain ⟨is, hprint, hstores⟩ := h.stores
  rw [printStaticConstant_string] at hprint
  cases hprint
  have hutf := wellFormed_of_stores readsText_utf8Env (by decide) (by decide) (by decide) hstores
  revert hutf
  decide +kernel

end Llxvm.Backend
