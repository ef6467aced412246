import Llxvm.Backend.Leaves
import Llxvm.Backend.OperationRuns
import Llxvm.Backend.StringConstants

/-!
# Pieces of static initialisers

`printStaticConstant` passes an address from one scalar to the next: `pack` aligns it and
advances it, `zero` advances it without aligning, undefined aggregates do neither.  Its code stores
one piece for each block of the constant, or never ends.
-/

namespace Llxvm.Backend

open Llxvm.Jvm Llxvm.Runtime Align DataLayout Placement

/-! ## Pieces in the memory -/

section memory

/-- The pieces have been stored, and nothing else. -/
structure Stored (m m' : Memory) (qs : List (ℕ × List (BitVec 8))) : Prop where
  mapped : ∀ x, m'.Mapped x ↔ m.Mapped x
  holds : ∀ q ∈ qs, m'.Holds q.1 q.2
  frame : ∀ x, Free qs x → m'.byte x = m.byte x

def PiecesMapped (m : Memory) (qs : List (ℕ × List (BitVec 8))) : Prop :=
  ∀ q ∈ qs, ∀ i < q.2.length, m.Mapped (q.1 + i)

/-- The method stores a piece at the next multiple of its alignment and returns its end. -/
def PacksPiece (call : BitVec 32 → MemM (BitVec 32)) (p : Piece (BitVec 8)) : Prop :=
  ∀ (a : BitVec 32) (m : Memory), PiecesMapped m (placed a.toNat [p]) →
    ∃ r m', call a m = .ok r m' ∧ r.toNat = cursor a.toNat [p] ∧ Stored m m' (placed a.toNat [p])

variable {m m₁ m₂ : Memory}

theorem stored_nil (m : Memory) : Stored m m [] := ⟨fun _ => Iff.rfl, by simp, fun _ _ => rfl⟩

theorem Stored.append {qs rs : List (ℕ × List (BitVec 8))} (h : Stored m m₁ qs)
    (h' : Stored m₁ m₂ rs) {k : ℕ} (hqs : ∀ q ∈ qs, q.1 + q.2.length ≤ k)
    (hrs : ∀ r ∈ rs, k ≤ r.1) : Stored m m₂ (qs ++ rs) where
  mapped := fun x => (h'.mapped x).trans (h.mapped x)
  holds := by
    refine List.forall_mem_append.mpr ⟨fun q hq i hi => ?_, h'.holds⟩
    have hend := hqs q hq
    have hfree : Free rs (q.1 + i) := fun r hr => by
      have hstart := hrs r hr
      omega
    rw [h'.frame _ hfree]
    exact h.holds q hq i hi
  frame := fun x hx => by
    obtain ⟨hq, hr⟩ := List.forall_mem_append.mp hx
    exact (h'.frame x hr).trans (h.frame x hq)

theorem PiecesMapped.append {qs rs : List (ℕ × List (BitVec 8))}
    (h : PiecesMapped m (qs ++ rs)) (hs : Stored m m₁ qs) :
    PiecesMapped m qs ∧ PiecesMapped m₁ rs := by
  obtain ⟨hqs, hrs⟩ := List.forall_mem_append.mp h
  exact ⟨hqs, fun r hr i hi => (hs.mapped _).mpr (hrs r hr i hi)⟩

theorem packsPiece_pack (v : Prim) : PacksPiece (Memory.pack · v) (v.type.size, v.bytes) := by
  intro a m hm
  have hlen : v.bytes.length = v.type.size := Prim.length_bytes v
  have hhead : m.Mapped (alignUp a.toNat v.type.size) :=
    hm _ List.mem_cons_self 0 (by rw [hlen]; exact v.type.size_pos)
  have hpage : Memory.InPage (alignUp a.toNat v.type.size) v.bytes.length := by
    rw [hlen]
    exact Memory.inPage_slot _ _
  refine ⟨_, _, Memory.pack_ok hhead, ?_, fun x => Memory.mapped_write .., ?_, fun x hx => ?_⟩
  · rw [Memory.toNat_slot_add_size v.type hhead.lt_memSize]
    simp only [cursor, hlen]
  · simpa [placed] using Memory.holds_write hhead hpage
  · have hout := hx _ List.mem_cons_self
    dsimp only at hout
    rw [Memory.byte_write hhead hpage, if_neg (by omega)]

/-- A method that stores an array does not align. -/
theorem packsPiece_bytes {call : BitVec 32 → MemM (BitVec 32)} {bytes : List (BitVec 8)}
    (h : ∀ (a : BitVec 32) (m m' : Memory), (∀ i < bytes.length, m.Mapped (a.toNat + i)) →
      Memory.storeArray a bytes m = .ok () m' →
        call a m = .ok (a + BitVec.ofNat 32 bytes.length) m') :
    PacksPiece call (1, bytes) := by
  intro a m hm
  have hself : alignUp a.toNat 1 = a.toNat := alignUp_eq_self (one_dvd _)
  have hmapped : ∀ i < bytes.length, m.Mapped (a.toNat + i) := fun i hi =>
    hself ▸ hm _ List.mem_cons_self i hi
  obtain ⟨m', hstore, hholds, -, hmap, hout⟩ := Memory.storeArray_ok hmapped
  have hend : (a + BitVec.ofNat 32 bytes.length).toNat = a.toNat + bytes.length := by
    have hlt := a.isLt
    rcases Nat.eq_zero_or_pos bytes.length with hzero | hpos
    · rw [hzero]
      simp
    · have hlast := (hmapped (bytes.length - 1) (by omega)).lt_memSize
      simp only [memSize] at hlast
      rw [BitVec.toNat_add, BitVec.toNat_ofNat]
      omega
  refine ⟨_, m', h a m m' hmapped hstore, ?_, hmap, ?_, fun x hx => hout x ?_⟩
  · simp only [cursor, hself, hend]
  · simpa only [placed, hself, List.mem_singleton, forall_eq] using hholds
  · have hfree := hx _ List.mem_cons_self
    dsimp only at hfree
    omega

theorem packsPiece_packChars (bytes : List (BitVec 8)) :
    PacksPiece (Memory.packChars · (bytes.map (BitVec.setWidth 16))) (1, bytes) := by
  refine packsPiece_bytes fun a m m' _ hstore => ?_
  simp only [Memory.packChars, map_cut, List.length_map, bind, EStateM.bind, hstore]
  rfl

theorem memsetLoop_eq (val : BitVec 8) (n : ℕ) (a : BitVec 32) :
    Memory.memsetLoop val n a = Memory.storeArray a (List.replicate n val) := by
  induction n generalizing a with
  | zero => rfl
  | succ n ih => simp only [Memory.memsetLoop, List.replicate_succ, Memory.storeArray, ih]

theorem packsPiece_zero (n : ℕ) :
    PacksPiece (Memory.zero · (BitVec.ofNat 32 n)) (1, List.replicate n 0#8) := by
  refine packsPiece_bytes fun a m m' hm hstore => ?_
  rw [List.length_replicate] at hm ⊢
  have hcount : ((a + BitVec.ofNat 32 n).toInt - a.toInt).toNat = n := by
    rcases Nat.eq_zero_or_pos n with rfl | hpos
    · simp
    · -- no address of the block is negative
      have hlast := (hm (n - 1) (by omega)).lt_memSize
      simp only [memSize] at hlast
      rw [BitVec.toInt_eq_toNat_cond, BitVec.toInt_eq_toNat_cond, BitVec.toNat_add,
        BitVec.toNat_ofNat]
      split_ifs <;> omega
  simp only [Memory.zero, Memory.memset, hcount, memsetLoop_eq, bind, EStateM.bind, hstore]
  rfl

end memory

/-! ## Code that stores pieces -/

section code

/-- From whatever address it starts, the code leaves an address or throws. -/
def PassesAddress (env : Env) (is : Code) : Prop :=
  ∀ (c : Config) (a : BitVec 32), ∃ r, ExitsAs (run env is none (c.push (.int a))) c c.stack r

/-- Printed from any state of the writer, the code stores the pieces from the address on the
stack on, and leaves the end of the last one. -/
def StoresPieces (env : Env) (blocks : List (String × ℕ)) (x : Emit Code)
    (ps : List (Piece (BitVec 8))) : Prop :=
  ∀ w : Writer, w.Fresh → w.basicblockMap = blocks →
    ∃ is w', x w = some (is, w') ∧ Emitted w w' is ∧ PassesAddress env is ∧
      ∀ (c : Config) (a : BitVec 32), PiecesMapped c.memory (placed a.toNat ps) →
        ∃ r m', run env is none (c.push (.int a)) = .fall ({ c with memory := m' }.push (.int r)) ∧
          r.toNat = cursor a.toNat ps ∧ Stored c.memory m' (placed a.toNat ps)

/-- However it is printed, the code gets stuck or throws. -/
def NeverEnds (env : Env) (blocks : List (String × ℕ)) (x : Emit Code) : Prop :=
  ∀ (w w' : Writer) (is : Code), w.Fresh → w.basicblockMap = blocks → x w = some (is, w') →
    ∀ (c : Config) (a : BitVec 32), run env is none (c.push (.int a)) = .stuck ∨
      ∃ e c', run env is none (c.push (.int a)) = .throw e c'

variable {env : Env} {blocks : List (String × ℕ)} {x y : Emit Code}
  {ps qs : List (Piece (BitVec 8))}

theorem PassesAddress.append {is js : Code} (h : PassesAddress env is) (h' : PassesAddress env js) :
    PassesAddress env (is ++ js) := by
  intro c a
  obtain ⟨r, hr⟩ := h c a
  rw [run_append]
  cases r with
  | ok r m =>
      obtain ⟨r', hr'⟩ := h' { c with memory := m } r
      refine ⟨r', ?_⟩
      rw [show run env is none (c.push (.int a)) = _ from hr]
      cases r' <;> exact hr'
  | error e m =>
      obtain ⟨c', hthrow, hmemory⟩ := hr
      rw [hthrow]
      exact ⟨.error e m, c', rfl, hmemory⟩

theorem storesPieces_nil : StoresPieces env blocks (pure []) [] := fun w _ _ =>
  ⟨[], w, rfl, .refl w (by intro l hl; cases hl), fun c a => ⟨.ok a c.memory, rfl⟩, fun c a _ =>
    ⟨a, c.memory, rfl, rfl, stored_nil _⟩⟩

theorem StoresPieces.cat (hx : StoresPieces env blocks x ps) (hy : StoresPieces env blocks y qs) :
    StoresPieces env blocks (Emit.cat x y) (ps ++ qs) := by
  intro w hw hb
  obtain ⟨is, w₁, hprint, hemit, hpass, hrun⟩ := hx w hw hb
  obtain ⟨js, w₂, hprint₂, hemit₂, hpass₂, hrun₂⟩ :=
    hy w₁ (hemit.fresh hw) (hemit.basicblockMap.trans hb)
  refine ⟨_, w₂, cat_eq_of_eq hprint hprint₂, hemit.trans hemit₂, hpass.append hpass₂,
    fun c a hm => ?_⟩
  rw [placed_append] at hm ⊢
  obtain ⟨r, m₁, hfall, hr, hstored⟩ := hrun c a (List.forall_mem_append.mp hm).1
  have hm₁ := (hm.append hstored).2
  rw [← hr] at hm₁ ⊢
  obtain ⟨r', m₂, hfall₂, hr', hstored₂⟩ := hrun₂ { c with memory := m₁ } r hm₁
  refine ⟨r', m₂, ?_, ?_, hstored.append hstored₂ (fun q hq => (bounds_of_mem_placed hq).2)
    fun q hq => hr ▸ (bounds_of_mem_placed hq).1⟩
  · rw [run_append_of_fall hfall]
    exact hfall₂
  · rw [hr', hr, cursor_append]

/-- A value is loaded, and handed over with the address. -/
theorem storesPieces_call {load : Emit Code} {v : Val}
    (hload : Uniform env blocks load [] (some (.ok v))) {mr : MethodRef}
    {call : BitVec 32 → MemM (BitVec 32)}
    (hcall : ∀ a, invoke env mr [.int a, v] = some (do return some (.int (← call a))))
    (harity : mr.arity = 2) {p : Piece (BitVec 8)} (hp : PacksPiece call p) :
    StoresPieces env blocks (do return (← load) ++ [.invokestatic mr]) [p] := by
  intro w hw hb
  obtain ⟨is, w', hprint, hemit, hacts⟩ := hload w hw hb
  have hrun : ∀ (c : Config) (a : BitVec 32), ExitsAs
      (run env (is ++ [.invokestatic mr]) none (c.push (.int a))) c c.stack (call a c.memory) := by
    intro c a
    have hfall : run env is none (c.push (.int a)) = .fall ((c.push (.int a)).push v) :=
      hacts (c.push (.int a))
    rw [run_append_of_fall hfall]
    exact run_invoke (hcall a) harity.symm c c.stack
  refine ⟨is ++ [.invokestatic mr], w', ?_, ?_, fun c a => ⟨_, hrun c a⟩, fun c a hm => ?_⟩
  · simp only [emit_bind, emit_pure, hprint, Option.bind_some]
  · exact hemit.trans (.refl w' (by intro l hl; simp at hl))
  · obtain ⟨r, m', hpack, hr, hstored⟩ := hp a c.memory hm
    have hfall := hrun c a
    rw [hpack] at hfall
    exact ⟨r, m', hfall, hr, hstored⟩

theorem exists_of_cat {w w' : Writer} {is : Code} (h : Emit.cat x y w = some (is, w')) :
    ∃ is₁ is₂ w₁, x w = some (is₁, w₁) ∧ y w₁ = some (is₂, w') ∧ is = is₁ ++ is₂ := by
  obtain ⟨is₁, w₁, hx, hrest⟩ := emit_bind_eq_some h
  obtain ⟨is₂, w₂, hy, hpure⟩ := emit_bind_eq_some hrest
  cases hpure
  exact ⟨is₁, is₂, w₁, hx, hy, rfl⟩

/-- Code that never ends is not helped by what follows, -/
theorem NeverEnds.cat (hx : NeverEnds env blocks x) : NeverEnds env blocks (Emit.cat x y) := by
  intro w w' is hw hb hprint c a
  obtain ⟨is₁, is₂, w₁, hx₁, -, rfl⟩ := exists_of_cat hprint
  rw [run_append]
  rcases hx w w₁ is₁ hw hb hx₁ c a with hstuck | ⟨e, c', hthrow⟩
  · exact .inl (by rw [hstuck]; rfl)
  · exact .inr ⟨e, c', by rw [hthrow]; rfl⟩

/-- nor by what stores pieces before it. -/
theorem StoresPieces.cat_neverEnds (hx : StoresPieces env blocks x ps)
    (hy : NeverEnds env blocks y) : NeverEnds env blocks (Emit.cat x y) := by
  intro w w' is hw hb hprint c a
  obtain ⟨is₁, is₂, w₁, hx₁, hy₂, rfl⟩ := exists_of_cat hprint
  obtain ⟨is', w₁', hprint', hemit, hpass, -⟩ := hx w hw hb
  cases hx₁.symm.trans hprint'
  obtain ⟨r, hr⟩ := hpass c a
  rw [run_append]
  cases r with
  | ok r m =>
      rw [show run env is₁ none (c.push (.int a)) = _ from hr]
      exact hy w₁ w' is₂ (hemit.fresh hw) (hemit.basicblockMap.trans hb) hy₂
        { c with memory := m } r
  | error e m =>
      obtain ⟨c', hthrow, -⟩ := hr
      exact .inr ⟨e, c', by rw [hthrow]; rfl⟩

end code

/-! ## Constants that are loaded as their values -/

section loaded

variable (env : Env) (opts : GenerationOpts) (value : Constant → Option (List (BitVec 8)))
  (blocks : List (String × ℕ))

/-- The load that `printStaticConstant` prints for a scalar. -/
def printStaticLoad (c : Constant) : Emit Code :=
  match c.type with
  | .pointer => printStaticPointer opts c
  | _ => printConstLoad opts c

/-- The load leaves an argument of `pack` that has the bytes. -/
def Packs (c : Constant) (bytes : List (BitVec 8)) : Prop :=
  ∃ x a, Uniform env blocks (printStaticLoad opts c) [] (some (.ok x)) ∧
    argument (getTypeDescriptor c.type false) x = some a ∧ a.bytes = bytes

/-- It has the bytes of the value, if the constant has one. -/
def LoadsBytes (c : Constant) : Prop :=
  ∃ bytes, Packs env opts blocks c bytes ∧ ∀ v ∈ value c, bytes = v

mutual

/-- The scalars are loaded as their values, the strings as their bytes, and the sizes of null
constants as numbers. -/
def Constant.Loaded (c : Constant) : Prop :=
  if c.isNullValue then
    ¬ (opts.wideLdc ∧ NeedsLdc (BitVec.ofNat 32 (jvm.getTypeAllocSize c.type)))
  else
    match c with
    | .string bytes => ¬ opts.wideLdc ∧ (isCString bytes → Utf.WellFormed bytes.dropLast)
    | .dataArray _ elems => allLoaded elems
    | .aggregate _ operands => allLoaded operands
    | c => c.type.prim.isSome → LoadsBytes env opts value blocks c

def allLoaded : List Constant → Prop
  | [] => True
  | c :: cs => c.Loaded ∧ allLoaded cs

end

mutual

/-- The bytes of the C strings before their null are UTF-8. -/
def Constant.HasUtf8 : Constant → Prop
  | .string bytes => isCString bytes → Utf.WellFormed bytes.dropLast
  | .dataArray _ elems => allHaveUtf8 elems
  | .aggregate _ operands => allHaveUtf8 operands
  | _ => True

def allHaveUtf8 : List Constant → Prop
  | [] => True
  | c :: cs => c.HasUtf8 ∧ allHaveUtf8 cs

end

end loaded

section pieces

variable {env : Env} {opts : GenerationOpts} {value : Constant → Option (List (BitVec 8))}
  {blocks : List (String × ℕ)}

/-- No piece for no bytes. -/
def bytePieces (bytes : List (BitVec 8)) : List (Piece (BitVec 8)) :=
  if bytes = [] then [] else [(1, bytes)]

theorem matches_byteBlock (o : ℕ) (bytes : List (BitVec 8)) :
    List.Forall₂ Matches (byteBlock o bytes) (bytePieces bytes) := by
  unfold byteBlock bytePieces
  split_ifs
  · exact .nil
  · exact .cons ⟨rfl, rfl, fun v hv => Option.some.inj hv⟩ .nil

theorem StoresPieces.bytes {x : Emit Code} {bytes : List (BitVec 8)}
    (h : StoresPieces env blocks x [(1, bytes)]) :
    StoresPieces env blocks x (bytePieces bytes) := by
  unfold bytePieces
  split_ifs with hnil
  · subst hnil
    intro w hw hb
    obtain ⟨is, w', hprint, hemit, hpass, hrun⟩ := h w hw hb
    refine ⟨is, w', hprint, hemit, hpass, fun c a _ => ?_⟩
    obtain ⟨r, m', hfall, hr, hstored⟩ := hrun c a (by simp [PiecesMapped, placed])
    refine ⟨r, m', hfall, ?_, hstored.mapped, by simp [placed], fun x _ => hstored.frame x ?_⟩
    · rw [hr]
      exact alignUp_eq_self (one_dvd _)
    · simp only [placed, Free, List.mem_singleton, forall_eq, List.length_nil]
      omega
  · exact h

theorem printStaticConstant_null {c : Constant} (hnull : c.isNullValue) :
    printStaticConstant opts c = do
      return (← (pure (printPtrLoad opts (jvm.getTypeAllocSize c.type)) : Emit Code)) ++
        [.invokestatic .zero] := by
  unfold printStaticConstant
  rw [if_pos hnull]
  rfl

theorem storesPieces_null {c : Constant} (hnull : c.isNullValue)
    (hl : c.Loaded env opts value blocks) : StoresPieces env blocks
      (printStaticConstant opts c)
      (bytePieces (List.replicate (jvm.getTypeAllocSize c.type) 0#8)) := by
  unfold Constant.Loaded at hl
  rw [if_pos hnull] at hl
  have hval : constantVal opts (BitVec.ofNat 32 (jvm.getTypeAllocSize c.type)) =
      .int (BitVec.ofNat 32 (jvm.getTypeAllocSize c.type)) := by
    rw [constantVal, if_pos ⟨le_rfl, hl⟩, BitVec.signExtend_eq]
  have hacts : Acts env (printPtrLoad opts (jvm.getTypeAllocSize c.type)) [] _ :=
    acts_printConstLoadInt (BitVec.ofNat 32 (jvm.getTypeAllocSize c.type))
  rw [hval] at hacts
  have hsilent : Silent (printPtrLoad opts (jvm.getTypeAllocSize c.type)) :=
    (isPush_printConstLoadInt _).silent
  rw [printStaticConstant_null hnull]
  exact (storesPieces_call (uniform_pure hsilent hacts) (fun a => rfl) rfl
    (packsPiece_zero _)).bytes

theorem storesPieces_string (ht : ReadsText env) {bytes : List (BitVec 8)}
    (hwide : ¬ opts.wideLdc) (hutf : isCString bytes → Utf.WellFormed bytes.dropLast) :
    StoresPieces env blocks (pure (printStringConstant opts bytes (isCString bytes)))
      (bytePieces bytes) := by
  have hload : ∀ cstring, Acts env (printConstLoadString opts bytes cstring) []
      (some (.ok (.ref (.string (env.readString (literalText bytes cstring)))))) :=
    fun cstring c => run_printConstLoadString hwide bytes cstring c
  have hsilent : ∀ cstring, Silent (printConstLoadString opts bytes cstring) := fun cstring =>
    (isPush_ldcToken _).silent
  refine StoresPieces.bytes ?_
  cases hc : isCString bytes with
  | true =>
      have hbytes : env.getBytes (env.readString (literalText bytes true)) = bytes.dropLast :=
        getBytes_readString ht (hutf hc)
      have hcall : ∀ a, invoke env .packString
          [.int a, .ref (.string (env.readString (literalText bytes true)))] =
            some (do return some (.int (← Memory.packChars a
              (bytes.map (BitVec.setWidth 16))))) := by
        intro a
        rw [invoke_packString, hbytes, packString_dropLast hc]
      exact storesPieces_call (uniform_pure (hsilent true) (hload true)) hcall rfl
        (packsPiece_packChars bytes)
  | false =>
      have hchars : Acts env (printConstLoadString opts bytes false ++ [.toCharArray]) []
          (some (.ok (.ref (.charArray (bytes.map (BitVec.setWidth 16)))))) := by
        rw [← readString_unicode ht]
        intro c
        exact run_append_of_fall (hload false c)
      have hcode : (pure (printStringConstant opts bytes false) : Emit Code) = do
          return (← pure (printConstLoadString opts bytes false ++ [.toCharArray])) ++
            [.invokestatic .packChars] := by
        simp only [printStringConstant, pure_bind, List.append_assoc]
        rfl
      rw [hcode]
      refine storesPieces_call (uniform_pure ((hsilent false).append ?_) hchars)
        (fun a => invoke_packChars a _) rfl (packsPiece_packChars bytes)
      intro l hl
      simp at hl

theorem printStaticScalar_eq {c : Constant} (h : c.type.prim.isSome) :
    printStaticScalar opts c = do
      return (← printStaticLoad opts c) ++
        [.invokestatic (.pack (getTypeDescriptor c.type false))] := by
  unfold printStaticScalar printStaticLoad
  cases hty : c.type with
  | array n elem => rw [hty] at h; cases h
  | struct fields => rw [hty] at h; cases h
  | _ => rfl

theorem argument_type {ty : Ty} {t : PrimType} (h : ty.prim = some t) {x : Val} {a : Prim}
    (ha : argument (getTypeDescriptor ty false) x = some a) : a.type = t := by
  have hcases := Ty.prim_cases h
  simp only [List.mem_cons, List.not_mem_nil, or_false] at hcases
  rcases hcases with rfl | rfl | rfl | rfl | rfl | rfl | rfl | rfl <;> cases h <;> cases x <;>
    first | cases ha; rfl | cases ha

theorem exists_scalarPiece {c : Constant} (hprim : c.type.prim.isSome)
    (hl : LoadsBytes env opts value blocks c) :
    ∃ ps, StoresPieces env blocks (printStaticScalar opts c) ps ∧
      ∀ o, List.Forall₂ Matches (scalarBlock value o c) ps := by
  obtain ⟨bytes, ⟨x, a, hload, harg, rfl⟩, hbytes⟩ := hl
  obtain ⟨t, ht⟩ := Option.isSome_iff_exists.mp hprim
  refine ⟨[(a.type.size, a.bytes)], ?_, fun o => ?_⟩
  · rw [printStaticScalar_eq hprim]
    exact storesPieces_call hload (fun addr => invoke_pack env addr harg) rfl (packsPiece_pack a)
  · rw [scalarBlock, ht, ← argument_type ht harg]
    exact .cons ⟨rfl, a.length_bytes, hbytes⟩ .nil

theorem exists_undefPieces {ty : Ty} (hty : ty.IsPlain)
    (hl : ty.prim.isSome → LoadsBytes env opts value blocks (.undef ty)) :
    ∃ ps, StoresPieces env blocks (printStaticScalar opts (.undef ty)) ps ∧
      ∀ o, List.Forall₂ Matches (scalarBlock value o (.undef ty)) ps := by
  cases ty with
  | array n elem => exact ⟨[], storesPieces_nil, fun _ => .nil⟩
  | struct fields => exact ⟨[], storesPieces_nil, fun _ => .nil⟩
  | int w =>
      rw [Ty.IsPlain] at hty
      exact exists_scalarPiece hty (hl hty)
  | _ => exact exists_scalarPiece rfl (hl rfl)

mutual

/-- The code of a constant stores one piece for each block. -/
theorem exists_pieces (ht : ReadsText env) (c : Constant) (hc : c.IsInitializer)
    (hl : c.Loaded env opts value blocks) :
    ∃ ps, StoresPieces env blocks (printStaticConstant opts c) ps ∧
      ∀ o, jvm.getABITypeAlignment c.type ∣ o →
        List.Forall₂ Matches (c.blocks value o) ps := by
  cases hnull : c.isNullValue with
  | true =>
      refine ⟨_, storesPieces_null hnull hl, fun o _ => ?_⟩
      unfold Constant.blocks
      rw [if_pos hnull]
      exact matches_byteBlock o _
  | false =>
      have hnot : ¬ c.isNullValue = true := by
        rw [hnull]
        exact Bool.false_ne_true
      unfold Constant.Loaded at hl
      unfold Constant.blocks printStaticConstant
      rw [if_neg hnot] at hl ⊢
      simp only [if_neg hnot]
      cases c with
      | string bytes =>
          exact ⟨_, storesPieces_string ht hl.1 hl.2, fun o _ => matches_byteBlock o bytes⟩
      | dataArray elem elems =>
          rw [Constant.IsInitializer] at hc
          obtain ⟨ps, hps, hmatch⟩ := exists_allPieces ht elems hc hl
          exact ⟨ps, hps, fun o ho => hmatch (laidOut_parts ho)⟩
      | aggregate ty operands =>
          rw [Constant.IsInitializer] at hc
          obtain ⟨ps, hps, hmatch⟩ := exists_allPieces ht operands hc.2 hl
          exact ⟨ps, hps, fun o ho => hmatch (laidOut_parts ho)⟩
      | undef ty =>
          rw [Constant.IsInitializer] at hc
          obtain ⟨ps, hps, hmatch⟩ := exists_undefPieces hc hl
          exact ⟨ps, hps, fun o _ => hmatch o⟩
      | selectExpr cond trueVal falseVal =>
          -- the operands of an aggregate would be stored instead
          obtain ⟨ps, hps, hmatch⟩ := exists_scalarPiece hc (hl hc)
          refine ⟨ps, ?_, fun o _ => hmatch o⟩
          have hprim : trueVal.type.prim.isSome := hc
          dsimp only
          cases hty : trueVal.type with
          | array n elem => rw [hty] at hprim; cases hprim
          | struct fields => rw [hty] at hprim; cases hprim
          | _ => exact hps
      | aggregateZero _ => cases hnull
      | _ =>
          obtain ⟨ps, hps, hmatch⟩ := exists_scalarPiece hc (hl hc)
          exact ⟨ps, hps, fun o _ => hmatch o⟩

theorem exists_allPieces (ht : ReadsText env) (cs : List Constant) {ts : List Ty}
    (hcs : Constant.areInitializers ts cs) (hl : allLoaded env opts value blocks cs) :
    ∃ ps, StoresPieces env blocks (printStaticConstants opts cs) ps ∧
      ∀ {e f : ℕ} {os : List ℕ}, LaidOut e f ts os →
        List.Forall₂ Matches (allBlocks value os cs) ps := by
  cases cs with
  | nil =>
      refine ⟨[], storesPieces_nil, fun {e f os} _ => ?_⟩
      cases os <;> exact .nil
  | cons c cs =>
      rcases ts with - | ⟨t, ts⟩
      · simp [Constant.areInitializers] at hcs
      rw [Constant.areInitializers] at hcs
      rw [allLoaded] at hl
      obtain ⟨ps, hps, hmatch⟩ := exists_pieces ht c hcs.2.1 hl.1
      obtain ⟨qs, hqs, hrest⟩ := exists_allPieces ht cs hcs.2.2 hl.2
      refine ⟨ps ++ qs, ?_, fun {e f os} h => ?_⟩
      · rw [printStaticConstants]
        exact hps.cat hqs
      · rcases os with - | ⟨o, os⟩
        · cases h
        · rw [allBlocks]
          exact List.rel_append (hmatch o (hcs.1 ▸ h.2.1)) (hrest h.2.2)

end

end pieces

/-! ## Constants that are not loaded -/

section unloaded

variable {env : Env} {opts : GenerationOpts} {blocks : List (String × ℕ)}

theorem settled_printStaticLoad (c : Constant) :
    Settled env blocks (printStaticLoad opts c) [] := by
  have hload : Settled env blocks (printConstLoad opts c) [] := by
    cases c with
    | int w x => exact (isPush_printConstLoadInt x).settled
    | float bits => exact (isPush_printConstLoadFloat bits).settled
    | double bits => exact (isPush_printConstLoadDouble bits).settled
    | blockAddress block => exact settled_printConstantLoad _
    | _ => exact (isPush_printConstLoadInt _).settled
  have hpointer : Settled env blocks (printStaticPointer opts c) [] := by
    cases c with
    | undef _ | blockAddress _ => exact settled_unreachable
    | _ => exact settled_printConstantLoad _
  unfold printStaticLoad
  split
  · exact hpointer
  · exact hload

/-- The method takes no such value. -/
theorem neverEnds_call {load : Emit Code} {v : Val}
    (hload : Uniform env blocks load [] (some (.ok v))) {mr : MethodRef}
    (hcall : ∀ a, invoke env mr [.int a, v] = none) (harity : mr.arity = 2) :
    NeverEnds env blocks (do return (← load) ++ [.invokestatic mr]) := by
  intro w w' is hw hb hprint c a
  obtain ⟨is', w₁, hprint', hemit, hacts⟩ := hload w hw hb
  simp only [emit_bind, emit_pure, hprint', Option.bind_some] at hprint
  cases hprint
  have hfall : run env is' none (c.push (.int a)) = .fall ((c.push (.int a)).push v) :=
    hacts (c.push (.int a))
  rw [run_append_of_fall hfall]
  simp [run, step, Config.push, harity, hcall]

theorem invoke_pack_none (env : Env) {d : TypeID} (addr : BitVec 32) {x : Val}
    (h : argument d x = none) : invoke env (.pack d) [.int addr, x] = none := by
  have hpure : invokePure env (.pack d) [.int addr, x] = none := by
    unfold invokePure
    rfl
  have hmemory : invokeMemory env (.pack d) [.int addr, x] =
      (argument d x).bind fun v => some do return some (.int (← Memory.pack addr v)) := by
    unfold invokeMemory
    rfl
  rw [invoke, hpure, hmemory, h]
  rfl

theorem neverEnds_scalar {c : Constant} (hprim : c.type.prim.isSome)
    (h : ∀ bytes, ¬ Packs env opts blocks c bytes) :
    NeverEnds env blocks (printStaticScalar opts c) := by
  rw [printStaticScalar_eq hprim]
  intro w w' is hw hb hprint k a
  obtain ⟨is', w₁, hload, hrest⟩ := emit_bind_eq_some hprint
  obtain ⟨r, hr⟩ := @settled_printStaticLoad env opts blocks c w hw hb (by rw [hload]; rfl)
  obtain ⟨is'', w₂, hload', -, hacts⟩ := hr w hw hb
  cases hload.symm.trans hload'
  have hrun := hacts (k.push (.int a))
  match r, hr, hrun with
  | some (.ok x), hr, _ =>
      have hnone : argument (getTypeDescriptor c.type false) x = none := by
        by_contra hsome
        obtain ⟨v, hv⟩ := Option.ne_none_iff_exists'.mp hsome
        exact h v.bytes ⟨x, v, hr, hv, rfl⟩
      exact neverEnds_call hr (fun a => invoke_pack_none env a hnone) rfl w w' is hw hb hprint k a
  | some (.error e), _, ⟨c', hthrow⟩ =>
      cases hrest
      rw [run_append, show run env is' none (k.push (.int a)) = _ from hthrow]
      exact .inr ⟨e, c', rfl⟩
  | none, _, hstuck =>
      cases hrest
      rw [run_append, show run env is' none (k.push (.int a)) = _ from hstuck]
      exact .inl rfl

theorem neverEnds_null {c : Constant} (hnull : c.isNullValue)
    (h : opts.wideLdc ∧ NeedsLdc (BitVec.ofNat 32 (jvm.getTypeAllocSize c.type))) :
    NeverEnds env blocks (printStaticConstant opts c) := by
  have hval : constantVal opts (BitVec.ofNat 32 (jvm.getTypeAllocSize c.type)) = .long _ :=
    if_neg fun hsmall => hsmall.2 h
  have hacts : Acts env (printPtrLoad opts (jvm.getTypeAllocSize c.type)) [] _ :=
    acts_printConstLoadInt (BitVec.ofNat 32 (jvm.getTypeAllocSize c.type))
  rw [hval] at hacts
  rw [printStaticConstant_null hnull]
  exact neverEnds_call (uniform_pure (isPush_printConstLoadInt _).silent hacts) (fun a => rfl) rfl

theorem neverEnds_string (hwide : opts.wideLdc) (bytes : List (BitVec 8)) :
    NeverEnds env blocks (pure (printStringConstant opts bytes (isCString bytes))) := by
  intro w w' is _ _ hprint c a
  cases hprint
  exact .inl (run_wide hwide bytes _ _)

mutual

/-- Without C strings of other bytes than UTF-8 the constant is loaded, or its code never ends. -/
theorem loaded_or_neverEnds (ht : ReadsText env) (c : Constant) (hc : c.IsInitializer)
    (hutf : c.HasUtf8) : c.Loaded env opts (fun _ => none) blocks ∨
      NeverEnds env blocks (printStaticConstant opts c) := by
  cases hnull : c.isNullValue with
  | true =>
      by_cases hwide : opts.wideLdc ∧ NeedsLdc (BitVec.ofNat 32 (jvm.getTypeAllocSize c.type))
      · exact .inr (neverEnds_null hnull hwide)
      · refine .inl ?_
        unfold Constant.Loaded
        rwa [if_pos hnull]
  | false =>
      have hnot : ¬ c.isNullValue = true := by
        rw [hnull]
        exact Bool.false_ne_true
      have hscalar : c.type.prim.isSome → LoadsBytes env opts (fun _ => none) blocks c ∨
          NeverEnds env blocks (printStaticScalar opts c) := by
        intro hprim
        by_cases hpacks : ∃ bytes, Packs env opts blocks c bytes
        · obtain ⟨bytes, hbytes⟩ := hpacks
          exact .inl ⟨bytes, hbytes, by simp⟩
        · exact .inr (neverEnds_scalar hprim (not_exists.mp hpacks))
      unfold Constant.Loaded printStaticConstant
      rw [if_neg hnot, if_neg hnot]
      cases c with
      | string bytes =>
          rw [Constant.HasUtf8] at hutf
          by_cases hwide : opts.wideLdc
          · exact .inr (neverEnds_string hwide bytes)
          · exact .inl ⟨hwide, hutf⟩
      | dataArray elem elems =>
          rw [Constant.IsInitializer] at hc
          rw [Constant.HasUtf8] at hutf
          exact allLoaded_or_neverEnds ht elems hc hutf
      | aggregate ty operands =>
          rw [Constant.IsInitializer] at hc
          rw [Constant.HasUtf8] at hutf
          exact allLoaded_or_neverEnds ht operands hc.2 hutf
      | undef ty =>
          by_cases hprim : ty.prim.isSome
          · rcases hscalar hprim with hload | hnever
            · exact .inl fun _ => hload
            · exact .inr hnever
          · exact .inl fun hsome => absurd hsome hprim
      | selectExpr cond trueVal falseVal =>
          rcases hscalar hc with hload | hnever
          · exact .inl fun _ => hload
          · refine .inr ?_
            have hprim : trueVal.type.prim.isSome := hc
            dsimp only
            cases hty : trueVal.type with
            | array n elem => rw [hty] at hprim; cases hprim
            | struct fields => rw [hty] at hprim; cases hprim
            | _ => exact hnever
      | aggregateZero _ => cases hnull
      | _ =>
          rcases hscalar hc with hload | hnever
          · exact .inl fun _ => hload
          · exact .inr hnever

theorem allLoaded_or_neverEnds (ht : ReadsText env) (cs : List Constant) {ts : List Ty}
    (hcs : Constant.areInitializers ts cs) (hutf : allHaveUtf8 cs) :
    allLoaded env opts (fun _ => none) blocks cs ∨
      NeverEnds env blocks (printStaticConstants opts cs) := by
  cases cs with
  | nil => exact .inl trivial
  | cons c cs =>
      rcases ts with - | ⟨t, ts⟩
      · simp [Constant.areInitializers] at hcs
      rw [Constant.areInitializers] at hcs
      rw [allHaveUtf8] at hutf
      rw [allLoaded, printStaticConstants]
      rcases loaded_or_neverEnds ht c hcs.2.1 hutf.1 with hload | hnever
      · rcases allLoaded_or_neverEnds ht cs hcs.2.2 hutf.2 with hloads | hnever
        · exact .inl ⟨hload, hloads⟩
        · obtain ⟨ps, hps, -⟩ := exists_pieces ht c hcs.2.1 hload
          exact .inr (hps.cat_neverEnds hnever)
      · exact .inr hnever.cat

end

end unloaded

section loads

variable {env : Env} {opts : GenerationOpts} {blocks : List (String × ℕ)}

end loads

/-! ## The bytes that are stored -/

section packed

variable {env : Env} {opts : GenerationOpts} {value value' : Constant → Option (List (BitVec 8))}
  {blocks : List (String × ℕ)}

mutual

/-- Constants with the same scalars are loaded alike. -/
theorem loaded_of_leaves (c : Constant) (hl : c.Loaded env opts value blocks)
    (h : ∀ path leaf, c.atPath path = some leaf → ¬ leaf.isNullValue → leaf.type.prim.isSome →
      LoadsBytes env opts value blocks leaf → LoadsBytes env opts value' blocks leaf) :
    c.Loaded env opts value' blocks := by
  unfold Constant.Loaded at hl ⊢
  split_ifs at hl ⊢ with hnull
  · exact hl
  · cases c with
    | string bytes => exact hl
    | dataArray elem elems =>
        exact allLoaded_of_leaves elems hl fun k path leaf => h (k :: path) leaf
    | aggregate ty operands =>
        exact allLoaded_of_leaves operands hl fun k path leaf => h (k :: path) leaf
    | _ => exact fun hprim => h [] _ rfl hnull hprim (hl hprim)

theorem allLoaded_of_leaves (cs : List Constant) (hl : allLoaded env opts value blocks cs)
    (h : ∀ (k : ℕ) path leaf, (cs[k]?.bind (Constant.atPath · path)) = some leaf →
      ¬ leaf.isNullValue → leaf.type.prim.isSome →
        LoadsBytes env opts value blocks leaf → LoadsBytes env opts value' blocks leaf) :
    allLoaded env opts value' blocks cs := by
  cases cs with
  | nil => trivial
  | cons c cs =>
      rw [allLoaded] at hl ⊢
      exact ⟨loaded_of_leaves c hl.1 (h 0), allLoaded_of_leaves cs hl.2 fun k => h (k + 1)⟩

end

variable {exprValue : Constant → Option LlvmVal}

end packed

end Llxvm.Backend
