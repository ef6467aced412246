import Llxvm.Backend.Arithmetic

/-!
# Integer and pointer casts

`printCastInstruction` followed by `printValueStore`.  The conversion is chosen from the
letters of the two types, and `i1` shares its letter with `i8`.
-/

namespace Llxvm.Backend

open Llxvm.Jvm Llxvm.Runtime SignExtend

/-- The casts between integers, and between integers and pointers. -/
inductive IntCast where
  | trunc (src dest : IntWidth)
  | zext (src dest : IntWidth)
  | sext (src dest : IntWidth)
  | ptrtoint (dest : IntWidth)
  | inttoptr (src : IntWidth)

namespace IntCast

def op : IntCast → CastOp
  | trunc _ _ => .trunc
  | zext _ _ => .zext
  | sext _ _ => .sext
  | ptrtoint _ => .ptrtoint
  | inttoptr _ => .inttoptr

def srcTy : IntCast → Ty
  | trunc src _ => .int src
  | zext src _ => .int src
  | sext src _ => .int src
  | ptrtoint _ => .pointer
  | inttoptr src => .int src

def destTy : IntCast → Ty
  | trunc _ dest => .int dest
  | zext _ dest => .int dest
  | sext _ dest => .int dest
  | ptrtoint dest => .int dest
  | inttoptr _ => .pointer

abbrev srcBits : IntCast → ℕ
  | trunc src _ => src.bits
  | zext src _ => src.bits
  | sext src _ => src.bits
  | ptrtoint _ => 32
  | inttoptr src => src.bits

abbrev destBits : IntCast → ℕ
  | trunc _ dest => dest.bits
  | zext _ dest => dest.bits
  | sext _ dest => dest.bits
  | ptrtoint dest => dest.bits
  | inttoptr _ => 32

/-- The result of LLVM: only `sext` replicates the sign bit. -/
def eval (k : IntCast) (x : BitVec k.srcBits) : BitVec k.destBits :=
  match k with
  | sext _ dest => x.signExtend dest.bits
  | k => x.setWidth k.destBits

/-- The pairs of types that LLVM allows, over the widths of C. -/
def Allowed : IntCast → Prop
  | trunc src dest => src ∈ [IntWidth.w8, .w16, .w32, .w64] ∧
      dest ∈ [IntWidth.w1, .w8, .w16, .w32] ∧ dest.bits < src.bits
  | zext src dest => src ∈ [IntWidth.w1, .w8, .w16, .w32] ∧
      dest ∈ [IntWidth.w8, .w16, .w32, .w64] ∧ src.bits < dest.bits
  | sext src dest => src ∈ [IntWidth.w1, .w8, .w16, .w32] ∧
      dest ∈ [IntWidth.w8, .w16, .w32, .w64] ∧ src.bits < dest.bits
  | ptrtoint dest => dest ∈ [IntWidth.w8, .w16, .w32, .w64]
  | inttoptr src => src ∈ [IntWidth.w8, .w16, .w32, .w64]

/-- The source values that are extended in the wrong way: `true` to a signed integer, a
pointer above `2 ^ 31` to 64 bits, and a negative narrow integer to a pointer. -/
def Misses (k : IntCast) (x : BitVec k.srcBits) : Prop :=
  match k with
  | trunc _ _ => False
  | zext _ _ => False
  | sext src _ => src.bits = 1 ∧ x ≠ 0
  | ptrtoint dest => dest.bits = 64 ∧ x.msb = true
  | inttoptr src => src.bits < 32 ∧ x.msb = true

/-- What the chosen conversion computes: an `i1` is extended with zeros, every other source
with its sign bit, except by the methods for `zext`. -/
def performed (k : IntCast) (x : BitVec k.srcBits) : BitVec k.destBits :=
  match k with
  | trunc _ dest => x.setWidth dest.bits
  | zext _ dest => x.setWidth dest.bits
  | sext src dest => if src.bits = 1 then x.setWidth dest.bits else x.signExtend dest.bits
  | ptrtoint dest => x.signExtend dest.bits
  | inttoptr _ => x.signExtend 32

section sext

variable {src : IntWidth} (dest : IntWidth) (x : BitVec src.bits)

theorem performed_sext_bit (h : src.bits = 1) :
    (sext src dest).performed x = x.setWidth dest.bits := if_pos h

theorem performed_sext (h : src.bits ≠ 1) :
    (sext src dest).performed x = x.signExtend dest.bits := if_neg h

end sext

theorem performed_eq_eval_iff {k : IntCast} (h : k.Allowed) (x : BitVec k.srcBits) :
    k.performed x = k.eval x ↔ ¬ k.Misses x := by
  have hpad : ∀ {n p : ℕ} (x : BitVec n), n < p →
      (x.signExtend p = x.setWidth p ↔ ¬ x.msb = true) := by
    intro n p x hlt
    rw [signExtend_eq_setWidth_iff hlt, Bool.not_eq_true]
  cases k with
  | trunc src dest => exact iff_of_true rfl id
  | zext src dest => exact iff_of_true rfl id
  | sext src dest =>
      obtain ⟨hsrc, hdest, hlt⟩ := h
      by_cases hone : src.bits = 1
      · have hbit : ∀ {n : ℕ} (x : BitVec n), n = 1 → (¬ x.msb = true ↔ x = 0#n) := by
          rintro n x rfl
          rcases BitVec.eq_zero_or_eq_one x with rfl | rfl <;> decide
        rw [performed_sext_bit dest x hone, eq_comm]
        exact ((hpad x hlt).trans (hbit x hone)).trans
          ⟨fun hx hmiss => hmiss.2 hx, fun hmiss => by_contra fun hx => hmiss ⟨hone, hx⟩⟩
      · exact iff_of_true (performed_sext dest x hone) fun hmiss => hone hmiss.1
  | ptrtoint dest =>
      simp only [Allowed, List.mem_cons, List.not_mem_nil, or_false] at h
      simp only [performed, eval, Misses, destBits]
      rcases h with rfl | rfl | rfl | rfl
      · exact iff_of_true (BitVec.signExtend_eq_setWidth_of_le x (by decide)) (by simp)
      · exact iff_of_true (BitVec.signExtend_eq_setWidth_of_le x (by decide)) (by simp)
      · exact iff_of_true (BitVec.signExtend_eq_setWidth_of_le x (by decide)) (by simp)
      · rw [hpad x (by decide)]
        simp
  | inttoptr src =>
      simp only [performed, eval, Misses, destBits]
      by_cases hlt : src.bits < 32
      · rw [hpad x hlt]
        simp [hlt]
      · exact iff_of_true (BitVec.signExtend_eq_setWidth_of_le x (not_lt.mp hlt)) (by simp [hlt])

end IntCast

/-- The code of a cast in a basic block. -/
def printCast (opts : GenerationOpts) (op : CastOp) (v : Value) (ty srcTy : Ty) (result : Local) :
    Emit Code := do
  let code ← printCastInstruction opts op v ty srcTy
  let store ← printValueStore opts result
  return code ++ store

theorem castCode_isUnary (op : CastOp) (ty srcTy : Ty) : ∀ i ∈ castCode op ty srcTy, i.isUnary := by
  have hcastPrefix : ∀ p q : Prefix, ∀ i ∈ printCastPrefix p q, i.isUnary := by
    intro p q i hi
    unfold printCastPrefix at hi
    split at hi
    · rw [List.mem_singleton.mp hi]
      rfl
    · cases hi
  have hbitcast : ∀ i ∈ printBitCastInstruction ty srcTy, i.isUnary := by
    intro i hi
    unfold printBitCastInstruction at hi
    split at hi <;> first | (rw [List.mem_singleton.mp hi]; rfl) | cases hi
  have hextend : ∀ p q p' q' : Prefix, ∀ n : ℕ,
      ∀ i ∈ (if n < 32 then printCastPrefix p q else []) ++ printCastPrefix p' q', i.isUnary := by
    intro p q p' q' n i hi
    rcases List.mem_append.mp hi with hi | hi
    · split at hi
      · exact hcastPrefix _ _ i hi
      · cases hi
    · exact hcastPrefix _ _ i hi
  intro i hi
  cases op
  case trunc =>
    simp only [castCode] at hi
    split at hi
    · rcases List.mem_cons.mp hi with rfl | hi
      · rfl
      · exact hcastPrefix _ _ i hi
    · exact hcastPrefix _ _ i hi
  case inttoptr => exact hcastPrefix _ _ i hi
  case ptrtoint => exact hcastPrefix _ _ i hi
  case bitcast => exact hbitcast i hi
  case zext =>
    rw [List.mem_singleton.mp hi]
    rfl
  case uitofp =>
    rw [List.mem_singleton.mp hi]
    rfl
  case fptoui =>
    rw [List.mem_singleton.mp hi]
    rfl
  all_goals exact hextend _ _ _ _ _ i hi

section cast

variable {env : Env} {opts : GenerationOpts} {w : Writer} {op : CastOp} {v result : Local}
  {a r : ℕ} {c : Config} {va vr : Val}

theorem printCast_eq (ha : w.Has v a) (hr : w.Has result r) (ty srcTy : Ty) :
    printCast opts op (.var v) ty srcTy result w =
      some (([.load (getTypePrefix v.ty true) (localForm opts a) a] ++ castCode op ty srcTy) ++
        (truncateCode result.ty ++
          [.store (getTypePrefix result.ty true) (localForm opts r) r]), w) := by
  simp only [printCast, printCastInstruction, emit_bind, emit_pure, Option.bind_some,
    printValueLoad_var ha, printValueStore_eq hr]

/-- Once the conversion is known to deliver a value, the store decides. -/
theorem computes_cast_iff (ha : w.Has v a) (hr : w.Has result r) (hva : c.locals a = some va)
    (hla : va.letter = v.ty.letter)
    (hcode : unaryCode env (castCode op result.ty v.ty) va = some (.ok vr))
    (hlr : vr.letter = result.ty.letter) (z : Val) :
    Computes env (printCast opts op (.var v) result.ty v.ty result w) c r z ↔
      normalize result.ty vr = z := by
  have hacts : Acts env (castCode op result.ty v.ty) [va] (some (.ok vr)) :=
    hcode ▸ acts_unaryCode (castCode_isUnary op result.ty v.ty) va
  have hop : run env (castCode op result.ty v.ty) none (c.push va) = .fall (c.push vr) := hacts c
  have hrun : run env (([.load (getTypePrefix v.ty true) (localForm opts a) a] ++
          castCode op result.ty v.ty) ++
        (truncateCode result.ty ++ [.store (getTypePrefix result.ty true) (localForm opts r) r]))
        none c = .fall { c with locals := c.locals.set r (normalize result.ty vr) } := by
    rw [List.append_assoc, run_append_of_fall (run_load hva hla _), run_append_of_fall hop]
    exact run_store hlr _ r c
  rw [printCast_eq ha hr]
  constructor
  · rintro ⟨is, w', heq, c', hfall, hz⟩
    cases heq
    rw [hrun] at hfall
    cases hfall
    simpa using hz
  · rintro rfl
    exact ⟨_, _, rfl, _, hrun, by simp⟩

end cast

/-! ## The value that each conversion delivers -/

/-- The widths that are held in an `int`. -/
abbrev intWidths : List IntWidth := [.w1, .w8, .w16, .w32]

/-- A store keeps the low bits of an `int`, in the representation of the type. -/
theorem normalize_int {w : IntWidth} (hw : w ∈ intWidths) (v : BitVec 32) :
    normalize (.int w) (.int v) = represent (v.setWidth w.bits) := by
  simp only [intWidths, List.mem_cons, List.not_mem_nil, or_false] at hw
  rcases hw with rfl | rfl | rfl | rfl
  · change Val.int (v &&& 1#32) = .int ((v.setWidth 1).setWidth 32)
    congr 1
    apply BitVec.eq_of_getLsbD_eq
    intro i hi
    rw [BitVec.getLsbD_and, BitVec.getLsbD_setWidth, BitVec.getLsbD_setWidth, BitVec.getLsbD_one]
    by_cases h : i < 1 <;> simp [h, hi] <;> omega
  · rfl
  · rfl
  · change Val.int v = .int ((v.setWidth 32).signExtend 32)
    simp

theorem normalize_long (v : BitVec 64) : normalize (.int .w64) (.long v) = represent v := by
  simp [normalize, represent]

theorem represent_injective {n : ℕ} (hn : n ≤ 64) {x y : BitVec n}
    (h : represent x = represent y) : x = y := by
  unfold represent at h
  split_ifs at h with hone hint
  · subst hone
    have hcut := congrArg (BitVec.setWidth 1) (Val.int.inj h)
    simpa using hcut
  · exact signExtend_injective hint (Val.int.inj h)
  · exact signExtend_injective hn (Val.long.inj h)

/-- The store of `v` leaves the representation of `z`. -/
def StoresAs (ty : Ty) {n : ℕ} (z : BitVec n) (v : Val) : Prop :=
  v.letter = ty.letter ∧ normalize ty v = represent z

theorem storesAs_int {w : IntWidth} (hw : w ∈ intWidths) {v : BitVec 32} {z : BitVec w.bits}
    (h : v.setWidth w.bits = z) : StoresAs (.int w) z (.int v) := by
  refine ⟨?_, by rw [normalize_int hw, h]⟩
  simp only [intWidths, List.mem_cons, List.not_mem_nil, or_false] at hw
  rcases hw with rfl | rfl | rfl | rfl <;> rfl

theorem storesAs_long {v z : BitVec 64} (h : v = z) : StoresAs (.int .w64) z (.long v) :=
  ⟨rfl, h ▸ normalize_long v⟩

theorem storesAs_pointer {v z : BitVec 32} (h : v = z) : StoresAs .pointer z (.int v) :=
  ⟨rfl, by simp [normalize, getBitWidth, represent, h]⟩

section delivers

variable (env : Env)

theorem trunc_delivers {src dest : IntWidth} (h : (IntCast.trunc src dest).Allowed)
    (x : BitVec src.bits) : ∃ v,
      unaryCode env (castCode .trunc (.int dest) (.int src)) (represent x) = some (.ok v) ∧
        StoresAs (.int dest) (x.setWidth dest.bits) v := by
  obtain ⟨hsrc, hdest, hlt⟩ := h
  simp only [List.mem_cons, List.not_mem_nil, or_false] at hsrc hdest
  rcases hsrc with rfl | rfl | rfl | rfl <;> rcases hdest with rfl | rfl | rfl | rfl <;>
    first
    | exact absurd hlt (by decide)
    | exact ⟨_, rfl, storesAs_int (by decide)
        (by simp [setWidth_signExtend_cut, BitVec.signExtend_eq_setWidth_of_le])⟩

theorem zext_delivers {src dest : IntWidth} (h : (IntCast.zext src dest).Allowed)
    (x : BitVec src.bits) : ∃ v,
      unaryCode env (castCode .zext (.int dest) (.int src)) (represent x) = some (.ok v) ∧
        StoresAs (.int dest) (x.setWidth dest.bits) v := by
  obtain ⟨hsrc, hdest, hlt⟩ := h
  simp only [List.mem_cons, List.not_mem_nil, or_false] at hsrc hdest
  -- `zext_i32` and `zext_i64` take a `boolean`, a `byte`, a `short` or an `int`
  rcases hsrc with rfl | rfl | rfl | rfl
  · rcases BitVec.eq_zero_or_eq_one x with rfl | rfl <;> rcases hdest with rfl | rfl | rfl | rfl <;>
      exact ⟨_, rfl, rfl, by decide⟩
  all_goals
    rcases hdest with rfl | rfl | rfl | rfl <;>
      first
      | exact absurd hlt (by decide)
      | (refine ⟨_, rfl, storesAs_int (by decide) ?_⟩
         simp [Instruction.zextI32Byte, Instruction.zextI32Short, Instruction.zextBy_eq,
           setWidth_signExtend])
      | (refine ⟨_, rfl, storesAs_long ?_⟩
         simp [Instruction.zextI64Byte, Instruction.zextI64Short, Instruction.zextI64Int,
           Instruction.zextBy_eq, setWidth_signExtend])

/-- An `i1` goes through `i2b`, which keeps the `1`. -/
theorem sext_bit_delivers {dest : IntWidth} (h : (IntCast.sext .w1 dest).Allowed) (x : BitVec 1) :
    ∃ v, unaryCode env (castCode .sext (.int dest) (.int .w1)) (represent x) = some (.ok v) ∧
      StoresAs (.int dest) (x.setWidth dest.bits) v := by
  have hdest := h.2.1
  simp only [List.mem_cons, List.not_mem_nil, or_false] at hdest
  rcases BitVec.eq_zero_or_eq_one x with rfl | rfl <;> rcases hdest with rfl | rfl | rfl | rfl <;>
    exact ⟨_, rfl, rfl, by decide⟩

theorem sext_delivers {src dest : IntWidth} (h : (IntCast.sext src dest).Allowed)
    (hsrc : src.bits ≠ 1) (x : BitVec src.bits) : ∃ v,
      unaryCode env (castCode .sext (.int dest) (.int src)) (represent x) = some (.ok v) ∧
        StoresAs (.int dest) (x.signExtend dest.bits) v := by
  obtain ⟨hmem, hdest, hlt⟩ := h
  simp only [List.mem_cons, List.not_mem_nil, or_false] at hmem hdest
  rcases hmem with rfl | rfl | rfl | rfl
  · exact absurd rfl hsrc
  all_goals
    rcases hdest with rfl | rfl | rfl | rfl <;>
      first
      | exact absurd hlt (by decide)
      | exact ⟨_, rfl, storesAs_int (by decide)
          (by simp [setWidth_signExtend_cut])⟩
      | exact ⟨_, rfl, storesAs_long (by simp [setWidth_signExtend, signExtend_signExtend])⟩

theorem ptrtoint_delivers {dest : IntWidth} (h : (IntCast.ptrtoint dest).Allowed) (x : BitVec 32) :
    ∃ v, unaryCode env (castCode .ptrtoint (.int dest) .pointer) (represent x) = some (.ok v) ∧
      StoresAs (.int dest) (x.signExtend dest.bits) v := by
  simp only [IntCast.Allowed, List.mem_cons, List.not_mem_nil, or_false] at h
  rcases h with rfl | rfl | rfl | rfl
  · exact ⟨_, rfl, storesAs_int (by decide)
      (by simp [setWidth_signExtend, BitVec.signExtend_eq_setWidth_of_le])⟩
  · exact ⟨_, rfl, storesAs_int (by decide)
      (by simp [setWidth_signExtend, BitVec.signExtend_eq_setWidth_of_le])⟩
  · exact ⟨_, rfl, storesAs_int (by decide) (by simp)⟩
  · exact ⟨_, rfl, storesAs_long (by simp)⟩

theorem inttoptr_delivers {src : IntWidth} (h : (IntCast.inttoptr src).Allowed)
    (x : BitVec src.bits) : ∃ v,
      unaryCode env (castCode .inttoptr .pointer (.int src)) (represent x) = some (.ok v) ∧
        StoresAs .pointer (x.signExtend 32) v := by
  simp only [IntCast.Allowed, List.mem_cons, List.not_mem_nil, or_false] at h
  rcases h with rfl | rfl | rfl | rfl
  · exact ⟨_, rfl, storesAs_pointer rfl⟩
  · exact ⟨_, rfl, storesAs_pointer rfl⟩
  · exact ⟨_, rfl, storesAs_pointer rfl⟩
  · exact ⟨_, rfl, storesAs_pointer (setWidth_signExtend_cut (by decide) x)⟩

/-- Every cast delivers a value that is stored as the performed conversion. -/
theorem intCast_delivers {k : IntCast} (h : k.Allowed) (x : BitVec k.srcBits) : ∃ v,
    unaryCode env (castCode k.op k.destTy k.srcTy) (represent x) = some (.ok v) ∧
      StoresAs k.destTy (k.performed x) v := by
  cases k with
  | trunc src dest => exact trunc_delivers env h x
  | zext src dest => exact zext_delivers env h x
  | sext src dest =>
      by_cases hone : src.bits = 1
      · obtain rfl : src = .w1 := by
          cases src
          simp only at hone
          subst hone
          rfl
        exact sext_bit_delivers env h x
      · rw [IntCast.performed_sext dest x hone]
        exact sext_delivers env h hone x
  | ptrtoint dest => exact ptrtoint_delivers env h x
  | inttoptr src => exact inttoptr_delivers env h x

end delivers

/-! ## All casts -/

theorem IntCast.letter_represent {k : IntCast} (h : k.Allowed) (x : BitVec k.srcBits) :
    (represent x).letter = k.srcTy.letter := by
  have hint : ∀ {w : IntWidth} (x : BitVec w.bits), w ∈ IntWidth.w64 :: intWidths →
      (represent x).letter = (Ty.int w).letter := by
    intro w x hw
    simp only [intWidths, List.mem_cons, List.not_mem_nil, or_false] at hw
    rcases hw with rfl | rfl | rfl | rfl | rfl <;> rfl
  cases k with
  | trunc src dest => exact hint x (by have := h.1; simp at this ⊢; tauto)
  | zext src dest => exact hint x (by have := h.1; simp at this ⊢; tauto)
  | sext src dest => exact hint x (by have := h.1; simp at this ⊢; tauto)
  | ptrtoint dest => rfl
  | inttoptr src => exact hint x (by simp only [IntCast.Allowed] at h; simp at h ⊢; tauto)

theorem IntCast.destBits_le (k : IntCast) : k.destBits ≤ 64 := by
  cases k with
  | trunc src dest => exact dest.le
  | zext src dest => exact dest.le
  | sext src dest => exact dest.le
  | ptrtoint dest => exact dest.le
  | inttoptr src => exact (by decide : 32 ≤ 64)

/-- The casts compute the results of LLVM, except where the sign of a narrow value decides
between the two extensions: `sext` of a set `i1`, `ptrtoint` of a high address to `i64`, and
`inttoptr` of a negative `i8` or `i16`. -/
theorem printCast_faithful_iff (env : Env) (opts : GenerationOpts) (wr : Writer) (k : IntCast)
    (hk : k.Allowed) (v result : Local) (hv : v.ty = k.srcTy) (hresult : result.ty = k.destTy)
    (a r : ℕ) (ha : wr.Has v a) (hr : wr.Has result r) (x : BitVec k.srcBits) (c : Config)
    (hx : c.locals a = some (represent x)) :
    Computes env (printCast opts k.op (.var v) k.destTy k.srcTy result wr) c r
        (represent (k.eval x)) ↔ ¬ k.Misses x := by
  obtain ⟨vr, hcode, hletter, hstore⟩ := intCast_delivers env hk x
  rw [← hresult, ← hv] at hcode
  rw [← hresult] at hletter
  have hla : (represent x).letter = v.ty.letter := hv ▸ IntCast.letter_represent hk x
  rw [← IntCast.performed_eq_eval_iff hk, ← hresult, ← hv,
    computes_cast_iff ha hr hx hla hcode hletter, hresult, hstore]
  exact ⟨represent_injective k.destBits_le, fun heq => congrArg represent heq⟩

/-- `sext i8 -16 to i64`. -/
theorem printCast_faithful_sext_i8 :
    Computes .plain
      (printCast ⟨false, false, false, false⟩ .sext (.var ⟨0, .int .w8⟩) (.int .w64) (.int .w8)
        ⟨1, .int .w64⟩ ⟨[(0, 0), (1, 1)], 3, [], 0, 700, none⟩)
      ⟨fun _ => some (.int (-16)), [], Memory.initial⟩ 1 (.long (-16)) :=
  (printCast_faithful_iff .plain ⟨false, false, false, false⟩
    ⟨[(0, 0), (1, 1)], 3, [], 0, 700, none⟩ (.sext .w8 .w64) ⟨by decide, by decide, by decide⟩
    ⟨0, .int .w8⟩ ⟨1, .int .w64⟩ rfl rfl 0 1 rfl rfl 0xf0#8
    ⟨fun _ => some (.int (-16)), [], Memory.initial⟩ rfl).mpr (by simp [IntCast.Misses])

/-- `sext i1 true to i8` is `-1`; the translated code leaves `1` in the local. -/
theorem printCast_sext_i1 :
    ¬ Computes .plain
      (printCast ⟨false, false, false, false⟩ .sext (.var ⟨0, .int .w1⟩) (.int .w8) (.int .w1)
        ⟨1, .int .w8⟩ ⟨[(0, 0), (1, 1)], 2, [], 0, 700, none⟩)
      ⟨fun _ => some (represent 1#1), [], Memory.initial⟩ 1
      (represent ((IntCast.sext .w1 .w8).eval 1#1)) := by
  rintro ⟨is, w, hcode, c, hrun, hlocal⟩
  cases hcode
  cases hrun
  revert hlocal
  decide

end Llxvm.Backend
