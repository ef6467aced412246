import Llxvm.Jreflect.ClassReader

/-!
# Acceptance

Which files the class reader accepts and which it refuses, when the value of a read past the end
of the file may be anything.
-/

namespace Llxvm.Jreflect

open LittleEndian StreamReader

def IsClassFile (bs : List Byte) : Prop := ∃ c : ClassFile, bs = c.bytes

/-- Whatever is read past the end, exactly a class file gives a class information. -/
def Accepted (bs : List Byte) : Prop :=
  ∀ u, (IsClassFile bs → ∃ ci s, read ⟨bs, u⟩ = some (some ci, s)) ∧
    (¬ IsClassFile bs → ∃ s, read ⟨bs, u⟩ = some (none, s))

/-- The `switch` has a case for the tag. -/
def HasCase (tag : Byte) : Prop :=
  ∃ t, ConstantPoolTag.ofByte tag = some t ∧ t ≠ .methodType

instance (tag : Byte) : Decidable (HasCase tag) :=
  decidable_of_iff ((ConstantPoolTag.ofByte tag).any (· ≠ .methodType)) (by
    cases h : ConstantPoolTag.ofByte tag <;> simp [HasCase, h])

/-- The bytes themselves decide that the file is refused: by the magic number, by a constant
pool without entries, or by the tag behind some entries. -/
inductive Refused : List Byte → Prop
  | magic (b rest : List Byte) (hlen : b.length = 4) (hne : b ≠ beBytes 4 magic) :
      Refused (b ++ rest)
  | pool (minor major count : BitVec 16) (rest : List Byte) (h : count.toNat ≤ 1) :
      Refused (ClassFile.headerBytes minor major count ++ rest)
  | tag (minor major count : BitVec 16) (pool : List Constant) (t : Byte) (rest : List Byte)
      (hpool : ∀ k ∈ pool, k.isMethodType = false) (hslots : poolSlots pool + 1 < count.toNat)
      (ht : ¬ HasCase t) :
      Refused (ClassFile.headerBytes minor major count ++
        (pool.flatMap Constant.bytes ++ t :: rest))

/-! ## What is refused -/

theorem beBytes_ofBeBytes {n w : ℕ} (h : 8 * n ≤ w) {bs : List Byte} (hbs : bs.length = n) :
    beBytes n (ofBeBytes w bs) = bs := by
  rw [beBytes, ofBeBytes, leBytes_ofLeBytes h (by rwa [List.length_reverse]), List.reverse_reverse]

/-- A tag without a case ends the loop, with a table of size 0 or with an error. -/
theorem parseItems_tag {t : Byte} (ht : ¬ HasCase t) (n : ℕ) (items : List Item) (size : ℕ)
    (rest : List Byte) (u : ℕ → BitVec 32) :
    (∃ items', parseItems (n + 1) items size ⟨t :: rest, u⟩ = some (some (items', 0), ⟨rest, u⟩)) ∨
      parseItems (n + 1) items size ⟨t :: rest, u⟩ = some (none, ⟨rest, u⟩) := by
  have htag : readHostByte ⟨t :: rest, u⟩ = some (t, ⟨rest, u⟩) := reads_byte t rest u
  simp only [parseItems, read_bind, htag, Option.bind_some]
  split_ifs with hrange
  · exact .inl ⟨items, rfl⟩
  · cases hof : ConstantPoolTag.ofByte t with
    | none => exact .inr rfl
    | some tag =>
        have hmt : tag = .methodType := by
          by_contra hne
          exact ht ⟨tag, hof, hne⟩
        subst hmt
        exact .inr rfl

theorem Refused.read {bs : List Byte} (h : Refused bs) (u : ℕ → BitVec 32) :
    ∃ s, Jreflect.read ⟨bs, u⟩ = some (none, s) := by
  cases h with
  | magic b rest hlen hne =>
      have hb : beBytes 4 (ofBeBytes 32 b) = b := beBytes_ofBeBytes (by decide) hlen
      have hread : isClass ⟨b ++ rest, u⟩ = some (false, ⟨rest, u⟩) := by
        have hfalse : (ofBeBytes 32 b == 0xcafebabe#32) = false := by
          refine beq_eq_false_iff_ne.mpr fun heq => hne ?_
          rw [← hb, heq]
          rfl
        have hword := (reads_word (ofBeBytes 32 b)).map (· == 0xcafebabe#32)
        rw [hb, hfalse] at hword
        exact hword rest u
      exact ⟨⟨rest, u⟩, by simp only [Jreflect.read, read_bind, hread]; rfl⟩
  | pool minor major count rest hcount =>
      refine ⟨⟨rest, u⟩, ?_⟩
      rw [ClassFile.read_headerBytes, readClass, read_bind, parseConstPool,
        show count.toNat - 1 = 0 by omega]
      rfl
  | tag minor major count pool t rest hpool hslots ht =>
      rw [ClassFile.read_headerBytes, readClass, read_bind, parseConstPool,
        parseItems_pool hpool (by omega)]
      obtain ⟨n, hn⟩ := Nat.exists_eq_succ_of_ne_zero
        (by omega : count.toNat - 1 - poolSlots pool ≠ 0)
      rw [hn]
      refine ⟨⟨rest, u⟩, ?_⟩
      rcases parseItems_tag ht n ([.empty] ++ poolItems pool) (0 + poolSize pool) rest u with
        ⟨items', hrun⟩ | hrun <;> rw [hrun] <;> rfl

theorem exists_first {pool : List Constant} (h : ∃ k ∈ pool, k.isMethodType = true) :
    ∃ before k after, pool = before ++ k :: after ∧ k.isMethodType = true ∧
      ∀ d ∈ before, d.isMethodType = false := by
  obtain ⟨k, hk⟩ := Option.isSome_iff_exists.mp (List.find?_isSome.mpr h)
  obtain ⟨htrue, before, after, hpool, hbefore⟩ := List.find?_eq_some_iff_append.mp hk
  exact ⟨before, k, after, hpool, htrue, by simpa using hbefore⟩

/-- A class file that cannot be read is refused. -/
theorem refused_of_not_readable {c : ClassFile} (h : ¬ c.Readable) : Refused c.bytes := by
  have hcount : (BitVec.ofNat 16 (poolSlots c.pool + 1)).toNat = poolSlots c.pool + 1 := by
    rw [BitVec.toNat_ofNat]
    exact Nat.mod_eq_of_lt c.pool_lt
  by_cases hnil : c.pool = []
  · refine .pool _ _ _ _ ?_
    rw [hcount, hnil]
    exact Nat.le_refl 1
  · have hmt : ∃ k ∈ c.pool, k.isMethodType = true := by
      by_contra hnone
      refine h ⟨hnil, fun k hk => ?_⟩
      by_contra htrue
      exact hnone ⟨k, hk, by simpa using htrue⟩
    obtain ⟨before, k, after, hpool, hk, hbefore⟩ := exists_first hmt
    have htag : k.tag = 16#8 := by
      cases k <;> first | rfl | cases hk
    have hbytes : c.pool.flatMap Constant.bytes ++ c.bodyBytes =
        before.flatMap Constant.bytes ++
          16#8 :: (k.payload ++ (after.flatMap Constant.bytes ++ c.bodyBytes)) := by
      rw [hpool, List.flatMap_append, List.flatMap_cons, Constant.bytes, htag]
      simp only [List.append_assoc, List.cons_append]
    have hslots : poolSlots c.pool = poolSlots before + (k.slots + poolSlots after) := by
      rw [hpool]
      simp [poolSlots]
    have hpos := k.slots_pos
    rw [ClassFile.bytes, hbytes]
    exact .tag _ _ _ before 16#8 _ hbefore (by omega) (by decide)

/-! ## Reading past the end -/

theorem safeFread_const (n w : ℕ) (bs : List Byte) (v : BitVec 32) :
    safeFread n w ⟨bs, fun _ => v⟩ =
      some (if n ≤ bs.length then ofBeBytes w (bs.take n) else v.setWidth w,
        ⟨bs.drop n, fun _ => v⟩) := by
  by_cases h : n ≤ bs.length
  · simp [safeFread, read_bind, take, h, read_pure]
  · have hlen : (bs.take n).length ≠ n := by
      rw [List.length_take]
      omega
    simp only [safeFread, read_bind, take, Option.bind_some, if_neg hlen, if_neg h]
    rfl

theorem continues_safeFread (v : BitVec 32) {n w : ℕ} (h : 8 * n ≤ w) :
    Continues v (safeFread n w) fun a pre => pre = beBytes n a := by
  intro bs
  refine ⟨_, _, safeFread_const n w bs v, ?_⟩
  by_cases hn : n ≤ bs.length
  · refine .inl ⟨bs.take n, (List.take_append_drop n bs).symm, ?_⟩
    simp only [if_pos hn]
    rw [beBytes_ofBeBytes h (by rw [List.length_take, Nat.min_eq_left hn])]
  · exact .inr (List.drop_eq_nil_of_le (Nat.le_of_not_le hn))

theorem continues_ushort (v : BitVec 32) :
    Continues v readHostUshort fun a pre => pre = beBytes 2 a :=
  continues_safeFread v (by decide)

theorem continues_word (v : BitVec 32) :
    Continues v (safeFread 4 32) fun a pre => pre = beBytes 4 a :=
  continues_safeFread v (by decide)

theorem continues_string (v : BitVec 32) (sz : BitVec 16) :
    Continues v (readHostString (sz.setWidth 32)) fun _ pre => pre.length = sz.toNat := by
  have hint : (sz.setWidth 32).toInt = sz.toNat := by
    have hlt := sz.isLt
    rw [BitVec.toInt_eq_toNat_of_lt] <;> rw [BitVec.toNat_setWidth] <;> omega
  have hlt := sz.isLt
  unfold readHostString
  rw [if_pos (by omega), hint]
  refine ((continues_take sz.toNat).map _).mono ?_
  rintro s pre ⟨bs, rfl, rfl, hlen⟩
  exact hlen

theorem continues_ref (v : BitVec 32) :
    Continues v readRef fun _ pre => ∃ cls nt : BitVec 16, pre = beBytes 2 cls ++ beBytes 2 nt := by
  refine ((continues_ushort v).bind fun cls => (continues_ushort v).map _).mono ?_
  rintro r pre ⟨cls, p, q, rfl, ⟨nt, rfl, rfl⟩, rfl⟩
  exact ⟨cls, nt, rfl⟩

/-- An entry behind its tag, or the end of the file. -/
theorem continues_readItem (v : BitVec 32) {tag : ConstantPoolTag} (h : tag ≠ .none)
    (hmt : tag ≠ .methodType) : Continues v (readItem tag) fun _ pre =>
      ∃ c : Constant, c.poolTag = tag ∧ c.isMethodType = false ∧ pre = c.payload := by
  have hpair : ∀ {pre : List Byte} {k : BitVec 16 → BitVec 16 → Constant},
      (∃ cls nt : BitVec 16, pre = beBytes 2 cls ++ beBytes 2 nt) →
      (∀ cls nt, (k cls nt).poolTag = tag ∧ (k cls nt).isMethodType = false ∧
        (k cls nt).payload = beBytes 2 cls ++ beBytes 2 nt) →
      ∃ c : Constant, c.poolTag = tag ∧ c.isMethodType = false ∧ pre = c.payload := by
    rintro pre k ⟨cls, nt, rfl⟩ hk
    exact ⟨k cls nt, (hk cls nt).1, (hk cls nt).2.1, (hk cls nt).2.2.symm⟩
  cases tag with
  | none => exact absurd rfl h
  | methodType => exact absurd rfl hmt
  | stringUtf8 =>
      refine ((continues_ushort v).bind fun sz => (continues_string v sz).map _).mono ?_
      rintro r pre ⟨sz, p, q, rfl, ⟨s, rfl, hlen⟩, rfl⟩
      refine ⟨.utf8 q (hlen ▸ sz.isLt), rfl, rfl, ?_⟩
      simp only [Constant.payload, hlen, BitVec.ofNat_toNat, BitVec.setWidth_eq]
  | integer =>
      refine ((continues_word v).map _).mono ?_
      rintro r pre ⟨a, rfl, rfl⟩
      exact ⟨.integer a, rfl, rfl, rfl⟩
  | float =>
      refine ((continues_word v).map _).mono ?_
      rintro r pre ⟨a, rfl, rfl⟩
      exact ⟨.float a, rfl, rfl, rfl⟩
  | long =>
      refine ((continues_word v).bind fun high => (continues_word v).map _).mono ?_
      rintro r pre ⟨high, p, q, rfl, ⟨low, rfl, rfl⟩, rfl⟩
      exact ⟨.long high low, rfl, rfl, rfl⟩
  | double =>
      refine ((continues_word v).bind fun high => (continues_word v).map _).mono ?_
      rintro r pre ⟨high, p, q, rfl, ⟨low, rfl, rfl⟩, rfl⟩
      exact ⟨.double high low, rfl, rfl, rfl⟩
  | classRef =>
      refine ((continues_ushort v).map _).mono ?_
      rintro r pre ⟨a, rfl, rfl⟩
      exact ⟨.classInfo a, rfl, rfl, rfl⟩
  | string =>
      refine ((continues_ushort v).map _).mono ?_
      rintro r pre ⟨a, rfl, rfl⟩
      exact ⟨.string a, rfl, rfl, rfl⟩
  | methodHandle =>
      refine ((continues_safeFread v (n := 1) (w := 8) (by decide)).bind fun kind =>
        (continues_ushort v).map _).mono ?_
      rintro r pre ⟨kind, p, q, rfl, ⟨a, rfl, rfl⟩, rfl⟩
      refine ⟨.methodHandle kind a, rfl, rfl, ?_⟩
      simp [Constant.payload, beBytes, leBytes]
  | field =>
      refine ((continues_ref v).map _).mono ?_
      rintro r pre ⟨a, rfl, hpre⟩
      exact hpair (k := .fieldref) hpre fun cls nt => ⟨rfl, rfl, rfl⟩
  | method =>
      refine ((continues_ref v).map _).mono ?_
      rintro r pre ⟨a, rfl, hpre⟩
      exact hpair (k := .methodref) hpre fun cls nt => ⟨rfl, rfl, rfl⟩
  | interfaceMethod =>
      refine ((continues_ref v).map _).mono ?_
      rintro r pre ⟨a, rfl, hpre⟩
      exact hpair (k := .interfaceMethodref) hpre fun cls nt => ⟨rfl, rfl, rfl⟩
  | name =>
      refine ((continues_ref v).map _).mono ?_
      rintro r pre ⟨a, rfl, hpre⟩
      exact hpair (k := .nameAndType) hpre fun cls nt => ⟨rfl, rfl, rfl⟩
  | invokeDynamic =>
      refine ((continues_ref v).map _).mono ?_
      rintro r pre ⟨a, rfl, hpre⟩
      exact hpair (k := .invokeDynamic) hpre fun cls nt => ⟨rfl, rfl, rfl⟩

theorem readItem_result {tag : ConstantPoolTag} (h : tag ≠ .none) (hmt : tag ≠ .methodType)
    {s s' : StreamReader.Stream Byte (BitVec 32)} {r : Option (ItemValue × ℕ)}
    (hrun : readItem tag s = some (r, s')) : ∃ value size, r = some (value, size) ∧ 0 < size := by
  cases tag with
  | none => exact absurd rfl h
  | methodType => exact absurd rfl hmt
  | _ =>
      simp only [readItem, read_bind, read_pure, Option.bind_eq_some_iff, Option.some.injEq,
        Prod.mk.injEq, Prod.exists] at hrun
      grind

/-! ## Running out of bytes -/

theorem HasCase.range {t : Byte} (h : HasCase t) : ¬ (t.toNat < 1 ∨ 18 < t.toNat) := by
  obtain ⟨tag, hof, -⟩ := h
  intro hout
  unfold ConstantPoolTag.ofByte at hof
  split at hof <;> first | omega | cases hof

theorem ConstantPoolTag.ofByte_ne_none (t : Byte) :
    ConstantPoolTag.ofByte t ≠ some ConstantPoolTag.none := by
  unfold ConstantPoolTag.ofByte
  split <;> simp

theorem Constant.tag_eq {c : Constant} {t : Byte}
    (h : ConstantPoolTag.ofByte t = some c.poolTag) : c.tag = t := by
  apply BitVec.eq_of_toNat_eq
  unfold ConstantPoolTag.ofByte at h
  cases c <;> simp only [poolTag] at h <;> split at h <;> simp_all [tag]

/-- What is to be read as a tag when the file is at its end is the tag of an integer. -/
abbrev endless (bs : List Byte) : StreamReader.Stream Byte (BitVec 32) := ⟨bs, fun _ => 3#32⟩

/-- The entries that are there, and behind them a tag without a case. -/
def Stops (n : ℕ) (bs : List Byte) : Prop :=
  ∃ (pool : List Constant) (t : Byte) (rest : List Byte),
    bs = pool.flatMap Constant.bytes ++ t :: rest ∧ (∀ k ∈ pool, k.isMethodType = false) ∧
      poolSlots pool < n ∧ ¬ HasCase t

theorem not_stops_nil (n : ℕ) : ¬ Stops n [] := by
  rintro ⟨pool, t, rest, h, -⟩
  simp at h

/-- A tag with a case, and the entry behind it or the end of the file. -/
theorem item_cases {t : Byte} (ht : HasCase t) (bs : List Byte) :
    ∃ tag value size rest, ConstantPoolTag.ofByte t = some tag ∧ 0 < size ∧
      readItem tag (endless bs) = some (some (value, size), endless rest) ∧
        ((∃ c : Constant, c.tag = t ∧ c.poolTag = tag ∧ c.isMethodType = false ∧
          bs = c.payload ++ rest) ∨ rest = []) := by
  obtain ⟨tag, hof, hmt⟩ := ht
  have hne : tag ≠ .none := by
    rintro rfl
    exact ConstantPoolTag.ofByte_ne_none t hof
  obtain ⟨r, rest, hrun, hcases⟩ := continues_readItem 3#32 hne hmt bs
  obtain ⟨value, size, rfl, hpos⟩ := readItem_result hne hmt hrun
  refine ⟨tag, value, size, rest, hof, hpos, hrun, hcases.imp_left ?_⟩
  rintro ⟨pre, hbs, c, htag, hc, rfl⟩
  exact ⟨c, Constant.tag_eq (htag ▸ hof), htag, hc, hbs⟩

/-- One round of the loop. -/
theorem parseItems_round {t : Byte} (ht : HasCase t) {bs bs' : List Byte}
    (hread : readHostByte (endless bs) = some (t, endless bs')) (n : ℕ) (items : List Item)
    (size : ℕ) : ∃ extra items' more rest, 0 < more ∧
      parseItems (n + 1) items size (endless bs) =
        parseItems (n - extra) items' (size + more) (endless rest) ∧
      ((∃ c : Constant, c.slots = extra + 1 ∧ c.isMethodType = false ∧
        t :: bs' = c.bytes ++ rest) ∨ rest = []) := by
  obtain ⟨tag, value, more, rest, hof, hpos, hitem, hrest⟩ := item_cases ht bs'
  have hround : parseItems (n + 1) items size (endless bs) =
      parseItems (n - if tag.isWide then 1 else 0)
        (items ++ if tag.isWide then [.empty, ⟨tag, value⟩] else [⟨tag, value⟩]) (size + more)
        (endless rest) := by
    simp only [parseItems, read_bind, hread, Option.bind_some, if_neg ht.range, hof, hitem]
    cases tag.isWide with
    | false => rfl
    | true =>
        cases n with
        | zero => rfl
        | succ n => rfl
  refine ⟨_, _, more, rest, hpos, hround, hrest.imp_left ?_⟩
  rintro ⟨c, rfl, rfl, hc, rfl⟩
  refine ⟨c, ?_, hc, rfl⟩
  rw [c.slots_eq]
  split <;> rfl

/-- The loop gets to its end, unless it meets a tag without a case. -/
theorem parseItems_cases (n : ℕ) (items : List Item) (size : ℕ) (bs : List Byte) :
    (∃ items' size' rest, parseItems n items size (endless bs) =
      some (some (items', size'), endless rest) ∧ size ≤ size' ∧ (0 < n → 0 < size')) ∨
      Stops n bs := by
  induction n using Nat.strongRecOn generalizing items size bs with
  | ind n ih =>
      cases n with
      | zero => exact .inl ⟨items, size, bs, rfl, Nat.le_refl _, fun h => absurd h (by decide)⟩
      | succ n =>
          have htag : ∃ t bs', readHostByte (endless bs) = some (t, endless bs') ∧
              (bs = t :: bs' ∨ t = 3#8 ∧ bs = [] ∧ bs' = []) := by
            cases bs with
            | nil => exact ⟨3#8, [], rfl, .inr ⟨rfl, rfl, rfl⟩⟩
            | cons t bs => exact ⟨t, bs, reads_byte t bs _, .inl rfl⟩
          obtain ⟨t, bs', hread, hbs⟩ := htag
          by_cases ht : HasCase t
          · obtain ⟨extra, items', more, rest, hpos, hround, hrest⟩ :=
              parseItems_round ht hread n items size
            rw [hround]
            rcases ih (n - extra) (by omega) items' (size + more) rest with
              ⟨items'', size', rest', hrun, hle, -⟩ | hstops
            · exact .inl ⟨items'', size', rest', hrun, by omega, fun _ => by omega⟩
            · rcases hrest with ⟨c, hslots, hc, hbytes⟩ | rfl
              · refine .inr ?_
                obtain ⟨pool, t', rest', rfl, hpool, hlt, ht'⟩ := hstops
                rcases hbs with rfl | ⟨-, -, rfl⟩
                · refine ⟨c :: pool, t', rest', ?_, ?_, ?_, ht'⟩
                  · rw [hbytes, List.flatMap_cons, List.append_assoc]
                  · simpa using ⟨hc, hpool⟩
                  · have hcons : poolSlots (c :: pool) = c.slots + poolSlots pool := by
                      simp [poolSlots]
                    omega
                · have hlen := congrArg List.length hbytes
                  have hpayload := c.payload_pos
                  simp only [Constant.bytes, List.length_append, List.length_cons,
                    List.length_nil] at hlen
                  omega
              · exact absurd hstops (not_stops_nil _)
          · rcases hbs with rfl | ⟨rfl, -, -⟩
            · exact .inr ⟨[], t, bs', rfl, by simp, by simp [poolSlots], ht⟩
            · exact absurd (by decide) ht

/-- A pool with entries is not refused, unless by its tags. -/
theorem readClass_cases (minor major : BitVec 16) {count : BitVec 16} (hcount : 1 < count.toNat)
    (bs : List Byte) : (∀ s, readClass minor major count (endless bs) ≠ some (none, s)) ∨
      Stops (count.toNat - 1) bs := by
  refine (parseItems_cases (count.toNat - 1) [.empty] 0 bs).imp_left ?_
  rintro ⟨items, size, rest, hrun, -, hpos⟩ s hnone
  rw [readClass, read_bind, parseConstPool, hrun, Option.bind_some] at hnone
  simp only [if_neg (by omega : size ≠ 0), read_bind] at hnone
  cases hbody : readBody ⟨minor, major, count, size, items, 0#16, 0#16, 0#16, [], [], [], []⟩
      (endless rest) with
  | none =>
      rw [hbody] at hnone
      cases hnone
  | some r =>
      rw [hbody] at hnone
      cases hnone

/-- The end of the file comes in the header; the number of entries is then that of `endless`. -/
theorem parseHeader_short {bs : List Byte} (h : bs.length < 6) : ∃ minor major,
    parseHeader (endless bs) = some ((minor, major, 3#16), endless []) := by
  obtain ⟨minor, hminor⟩ : ∃ minor, readHostUshort (endless bs) =
      some (minor, endless (bs.drop 2)) := ⟨_, safeFread_const 2 16 bs 3#32⟩
  obtain ⟨major, hmajor⟩ : ∃ major, readHostUshort (endless (bs.drop 2)) =
      some (major, endless ((bs.drop 2).drop 2)) := ⟨_, safeFread_const 2 16 (bs.drop 2) 3#32⟩
  have hcount : readHostUshort (endless ((bs.drop 2).drop 2)) = some (3#16, endless []) := by
    have hread := safeFread_const 2 16 ((bs.drop 2).drop 2) 3#32
    rw [List.drop_drop, if_neg (by rw [List.length_drop]; omega), List.drop_drop,
      List.drop_eq_nil_of_le (by omega : bs.length ≤ 2 + 2 + 2)] at hread
    rw [List.drop_drop]
    exact hread
  refine ⟨minor, major, ?_⟩
  simp only [parseHeader, read_bind, hminor, hmajor, hcount, Option.bind_some, read_pure]

theorem exists_beBytes {n w : ℕ} (h : 8 * n ≤ w) {bs : List Byte} (hn : n ≤ bs.length) :
    ∃ (v : BitVec w) (rest : List Byte), bs = beBytes n v ++ rest := by
  refine ⟨ofBeBytes w (bs.take n), bs.drop n, ?_⟩
  rw [beBytes_ofBeBytes h (by rw [List.length_take, Nat.min_eq_left hn]), List.take_append_drop]

theorem exists_header {bs : List Byte} (h : 6 ≤ bs.length) : ∃ minor major count rest,
    beBytes 4 magic ++ bs = ClassFile.headerBytes minor major count ++ rest := by
  obtain ⟨minor, bs, rfl⟩ := exists_beBytes (n := 2) (w := 16) (by decide)
    (by omega : 2 ≤ bs.length)
  rw [List.length_append, length_beBytes] at h
  obtain ⟨major, bs, rfl⟩ := exists_beBytes (n := 2) (w := 16) (by decide)
    (by omega : 2 ≤ bs.length)
  rw [List.length_append, length_beBytes] at h
  obtain ⟨count, bs, rfl⟩ := exists_beBytes (n := 2) (w := 16) (by decide)
    (by omega : 2 ≤ bs.length)
  refine ⟨minor, major, count, bs, ?_⟩
  simp only [ClassFile.headerBytes, List.append_assoc]

/-- A file that ends in its header is not refused. -/
theorem read_short {start : StreamReader.Stream Byte (BitVec 32)} {bs : List Byte}
    (hclass : isClass start = some (true, endless bs)) (h : bs.length < 6)
    (s : StreamReader.Stream Byte (BitVec 32)) : read start ≠ some (none, s) := by
  intro hnone
  obtain ⟨minor, major, hheader⟩ := parseHeader_short h
  simp only [read, read_bind, hclass, Option.bind_some, if_true, hheader] at hnone
  rcases readClass_cases minor major (by decide : 1 < (3#16).toNat) [] with hsome | hstops
  · exact hsome s hnone
  · exact not_stops_nil _ hstops

theorem isClass_magic (bs : List Byte) :
    isClass (endless (beBytes 4 magic ++ bs)) = some (true, endless bs) := by
  have hread := (reads_word magic).map (· == 0xcafebabe#32)
  exact hread bs _

theorem refused_of_magic {bs : List Byte} {s : StreamReader.Stream Byte (BitVec 32)}
    (h : read (endless (beBytes 4 magic ++ bs)) = some (none, s)) :
    Refused (beBytes 4 magic ++ bs) := by
  by_cases hlen : 6 ≤ bs.length
  · obtain ⟨minor, major, count, rest, heq⟩ := exists_header hlen
    rw [heq] at h ⊢
    rw [ClassFile.read_headerBytes] at h
    by_cases hcount : count.toNat ≤ 1
    · exact .pool minor major count rest hcount
    · rcases readClass_cases minor major (Nat.not_le.mp hcount) rest with hsome | hstops
      · exact absurd h (hsome s)
      · obtain ⟨pool, t, rest, rfl, hpool, hslots, ht⟩ := hstops
        exact .tag minor major count pool t rest hpool (by omega) ht
  · exact absurd h (read_short (isClass_magic bs) (by omega) s)

/-- A file that is no class file is refused only where its bytes say so. -/
theorem refused_of_accepted {bs : List Byte} (hno : ¬ IsClassFile bs) (h : Accepted bs) :
    Refused bs := by
  by_cases hlen : 4 ≤ bs.length
  · obtain ⟨v, bs, rfl⟩ := exists_beBytes (w := 32) (Nat.le_refl 32) hlen
    by_cases hmagic : v = magic
    · subst hmagic
      obtain ⟨s, hnone⟩ := (h fun _ => 3#32).2 hno
      exact refused_of_magic hnone
    · refine .magic (beBytes 4 v) bs (length_beBytes 4 v) fun heq => hmagic ?_
      rw [← ofBeBytes_beBytes (by decide : 32 ≤ 8 * 4) v, heq]
      exact ofBeBytes_beBytes (by decide) magic
  · -- what is missing of the magic number may read as the right one
    let u : ℕ → BitVec 32 := fun k => if k = 0 then magic else 3#32
    have hclass : isClass ⟨bs, u⟩ = some (true, endless []) := by
      have hlen' : (bs.take 4).length ≠ 4 := by
        rw [List.length_take]
        omega
      simp only [isClass, readHostUint, safeFread, read_bind, take, Option.bind_some, if_neg hlen']
      rw [List.drop_eq_nil_of_le (by omega : bs.length ≤ 4)]
      rfl
    obtain ⟨s, hnone⟩ := (h u).2 hno
    exact absurd hnone (read_short hclass (by decide) s)

/-! ## What is accepted -/

/-- The class reader decides what it should on the class files with entries in their pool,
without method types and with attributes that fit, and on the other files only where their
bytes say that they are refused. -/
theorem read_accepted_iff (bs : List Byte) : Accepted bs ↔
    (∃ c : ClassFile, bs = c.bytes ∧ c.Readable ∧ c.Fits) ∨ (¬ IsClassFile bs ∧ Refused bs) := by
  constructor
  · intro h
    by_cases hclass : IsClassFile bs
    · obtain ⟨c, rfl⟩ := hclass
      obtain ⟨ci, s, hrun⟩ := (h fun _ => 0#32).1 ⟨c, rfl⟩
      by_cases hreadable : c.Readable
      · by_cases hfits : c.Fits
        · exact .inl ⟨c, rfl, hreadable, hfits⟩
        · have hbad := ClassFile.fails_read hreadable hfits [] fun _ => 0#32
          rw [List.append_nil, hrun] at hbad
          cases hbad
      · obtain ⟨s', hnone⟩ := (refused_of_not_readable hreadable).read fun _ => 0#32
        rw [hrun] at hnone
        cases hnone
    · exact .inr ⟨hclass, refused_of_accepted hclass h⟩
  · rintro (⟨c, rfl, hreadable, hfits⟩ | ⟨hclass, hrefused⟩)
    · intro u
      have hread := ClassFile.reads_read hreadable hfits [] u
      rw [List.append_nil] at hread
      exact ⟨fun _ => ⟨_, _, hread⟩, fun hno => absurd ⟨c, rfl⟩ hno⟩
    · intro u
      exact ⟨fun hyes => absurd hyes hclass, fun _ => hrefused.read u⟩

/-- A class of one entry, a method type. -/
def methodTypeClass : ClassFile where
  minorVersion := 0#16
  majorVersion := 52#16
  pool := [.methodType 1#16]
  flags := 0#16
  thisClass := 1#16
  superClass := 0#16
  interfaces := []
  fields := []
  methods := []
  attributes := []
  pool_lt := by decide
  interfaces_lt := length_nil_lt
  fields_lt := length_nil_lt
  methods_lt := length_nil_lt
  attributes_lt := length_nil_lt

theorem not_accepted_methodTypeClass : ¬ Accepted methodTypeClass.bytes := by
  intro h
  obtain ⟨ci, s, hrun⟩ := (h fun _ => 0#32).1 ⟨_, rfl⟩
  have hnot : ¬ methodTypeClass.Readable := fun hread =>
    absurd (hread.no_methodType _ List.mem_cons_self) (by decide)
  obtain ⟨s', hnone⟩ := (refused_of_not_readable hnot).read fun _ => 0#32
  rw [hrun] at hnone
  cases hnone

end Llxvm.Jreflect
