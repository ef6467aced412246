import Llxvm.Backend.Loads
import Llxvm.Runtime.StackFrames

/-!
# Packed operands

`printOperandPack` allocates a block on the stack for the operands of a call and packs them
into it.  The size of the block is the sum of the sizes of the operands, without the padding
between them, and is written as a signed immediate of one or two bytes.
-/

namespace Llxvm.Backend

open Llxvm.Jvm Llxvm.Runtime Llxvm.Runtime.Memory Align

/-! ## Printing -/

/-- The size that `printOperandPack` computes, in an `unsigned int`. -/
def operandSize (args : List Value) : ℕ :=
  (args.map fun v => DataLayout.jvm.getTypeAllocSize v.type).sum % 2 ^ 32

section print

variable (opts : GenerationOpts)

/-- The second loop of `printOperandPack`. -/
def printPackCalls : List Value → Emit Code
  | [] => return []
  | v :: args => do
      let load ← printValueLoad opts v
      let rest ← printPackCalls args
      return load ++ [.invokestatic (.pack (getTypeDescriptor v.type false))] ++ rest

/-- The operands are those between `minOperand` and `maxOperand`. -/
def printOperandPack (args : List Value) : Emit Code := do
  let size := operandSize args
  let calls ← printPackCalls opts args
  return [if size < 256 then .bipush size else .sipush size, .invokestatic .allocateStack, .dup] ++
    calls ++ [.pop]

end print

/-! ## The operands -/

/-- The Java type of an operand of a call. -/
def Ty.prim : Ty → Option PrimType
  | .int w =>
      match w.bits with
      | 1 => some .boolean
      | 8 => some .byte
      | 16 => some .short
      | 32 => some .int
      | 64 => some .long
      | _ => none
  | .float => some .float
  | .double => some .double
  | .pointer => some .int
  | _ => none

theorem Ty.prim_cases {ty : Ty} {t : PrimType} (h : ty.prim = some t) :
    ty ∈ [Ty.int .w1, .int .w8, .int .w16, .int .w32, .int .w64, .float, .double, .pointer] := by
  cases ty with
  | int w =>
      obtain ⟨n, hpos, hle⟩ := w
      simp only [Ty.prim] at h
      split at h <;> first | (cases h; done) | simp only [List.mem_cons, true_or, or_true]
  | float => simp
  | double => simp
  | pointer => simp
  | array n elem => cases h
  | struct fields => cases h

theorem getTypeAllocSize_of_prim {ty : Ty} {t : PrimType} (h : ty.prim = some t) :
    DataLayout.jvm.getTypeAllocSize ty = t.size := by
  have hcases := Ty.prim_cases h
  simp only [List.mem_cons, List.not_mem_nil, or_false] at hcases
  rcases hcases with rfl | rfl | rfl | rfl | rfl | rfl | rfl | rfl <;> cases h <;> rfl

theorem primType_getTypeDescriptor {ty : Ty} (h : ty.prim.isSome) :
    primType (getTypeDescriptor ty false) = ty.prim := by
  obtain ⟨t, ht⟩ := Option.isSome_iff_exists.mp h
  have hcases := Ty.prim_cases ht
  simp only [List.mem_cons, List.not_mem_nil, or_false] at hcases
  rcases hcases with rfl | rfl | rfl | rfl | rfl | rfl | rfl | rfl <;> rfl

/-- A loaded operand is an argument of the overload of `pack` for its type. -/
theorem exists_argument {ty : Ty} {t : PrimType} (h : ty.prim = some t) {x : Val}
    (hx : x.letter = ty.letter) :
    ∃ a, argument (getTypeDescriptor ty false) x = some a ∧ a.type = t := by
  have hcases := Ty.prim_cases h
  simp only [List.mem_cons, List.not_mem_nil, or_false] at hcases
  rcases hcases with rfl | rfl | rfl | rfl | rfl | rfl | rfl | rfl <;> cases h <;> cases x <;>
    first | exact ⟨_, rfl, rfl⟩ | cases hx

/-! ## The chain of calls -/

section calls

variable {env : Env} {opts : GenerationOpts} {w : Writer} {locals : Locals}

/-- The operand is packed as the given value. -/
def PacksAs (env : Env) (opts : GenerationOpts) (w : Writer) (locals : Locals) (v : Value)
    (a : Prim) : Prop :=
  ∃ x, Operand env opts w locals v x ∧ argument (getTypeDescriptor v.type false) x = some a

theorem run_printPackCalls {args : List Value} {vs : List Prim}
    (h : List.Forall₂ (PacksAs env opts w locals) args vs) {w₁ : Writer} (hw₁ : w₁.Fresh)
    (hvars : w₁.localVars = w.localVars) (hblocks : w₁.basicblockMap = w.basicblockMap) :
    ∃ is w₂, printPackCalls opts args w₁ = some (is, w₂) ∧
      ∀ (c : Config) (addr : BitVec 32) (s : List Val), c.locals = locals →
        c.stack = .int addr :: s → ExitsAs (run env is none c) c s (packAll addr vs c.memory) := by
  induction h generalizing w₁ with
  | nil =>
      refine ⟨[], w₁, rfl, ?_⟩
      rintro ⟨l, st, m⟩ addr s rfl rfl
      rfl
  | @cons v a args vs hhead _ ih =>
      obtain ⟨x, hoperand, harg⟩ := hhead
      obtain ⟨load, w₂, hload, hemit, hrun⟩ := hoperand w₁ hw₁ hvars hblocks
      obtain ⟨rest, w₃, hrest, hrunrest⟩ := ih (hemit.fresh hw₁) (hemit.localVars.trans hvars)
        (hemit.basicblockMap.trans hblocks)
      refine ⟨load ++ [.invokestatic (.pack (getTypeDescriptor v.type false))] ++ rest, w₃, ?_, ?_⟩
      · simp only [printPackCalls, emit_bind, emit_pure, hload, hrest, Option.bind_some]
      · intro c addr s hlocals hstack
        have hcall := run_invoke (invoke_pack env addr harg) rfl c s
        have hpush : ({ c with stack := [.int addr, x].reverse ++ s } : Config) = c.push x := by
          simp [Config.push, hstack]
        rw [hpush] at hcall
        rw [List.append_assoc, run_append_of_fall (hrun c hlocals), run_append]
        cases hpack : pack addr a c.memory with
        | ok r m =>
            rw [hpack] at hcall
            have hnext := hrunrest { c with stack := .int r :: s, memory := m } r s hlocals rfl
            simp only [packAll, bind, EStateM.bind, hpack]
            rw [show run env _ none (c.push x) = _ from hcall]
            exact hnext
        | error e m =>
            rw [hpack] at hcall
            obtain ⟨c', hthrow, hmemory⟩ := hcall
            simp only [packAll, bind, EStateM.bind, hpack, hthrow]
            exact ⟨c', rfl, hmemory⟩

/-- The number that the first instruction pushes. -/
def pushedSize (size : ℕ) : BitVec 32 :=
  if size < 256 then (BitVec.ofInt 8 size).signExtend 32 else (BitVec.ofInt 16 size).signExtend 32

def exitMemory : Exit → Option Memory
  | .fall c => some c.memory
  | .jump _ c => some c.memory
  | .throw _ c => some c.memory
  | .stuck => none

/-- The code allocates the block, packs the operands into it and leaves its address. -/
theorem run_printOperandPack {args : List Value} {vs : List Prim}
    (h : List.Forall₂ (PacksAs env opts w locals) args vs) {w₁ : Writer} (hw₁ : w₁.Fresh)
    (hvars : w₁.localVars = w.localVars) (hblocks : w₁.basicblockMap = w.basicblockMap) :
    ∃ is w₂, printOperandPack opts args w₁ = some (is, w₂) ∧
      ∀ (c : Config) (p : BitVec 32), c.locals = locals →
        pushed c.memory.stackPointer (pushedSize (operandSize args)) = p →
        ExitsAs (run env is none c) c c.stack
          ((do let _ ← packAll p vs; return p) { c.memory with stackPointer := p }) := by
  obtain ⟨calls, w₂, hcalls, hrun⟩ := run_printPackCalls h hw₁ hvars hblocks
  refine ⟨_, w₂,
    by simp only [printOperandPack, emit_bind, emit_pure, hcalls, Option.bind_some]; rfl,
    fun c p hlocals hp => ?_⟩
  have hstart : run env [if operandSize args < 256 then .bipush (operandSize args)
      else .sipush (operandSize args), .invokestatic .allocateStack, .dup] none c =
      .fall { c with
        stack := .int p :: .int p :: c.stack
        memory := { c.memory with stackPointer := p } } := by
    rw [← hp]
    split_ifs with hsize
    · simp only [pushedSize, if_pos hsize]
      rfl
    · simp only [pushedSize, if_neg hsize]
      rfl
  have hmiddle := hrun { c with
      stack := .int p :: .int p :: c.stack
      memory := { c.memory with stackPointer := p } } p (.int p :: c.stack) hlocals rfl
  rw [List.append_assoc, run_append_of_fall hstart, run_append]
  cases hpack : packAll p vs { c.memory with stackPointer := p } with
  | ok last m =>
      rw [hpack] at hmiddle
      simp only [bind, EStateM.bind, hpack]
      rw [show run env calls none _ = _ from hmiddle]
      rfl
  | error e m =>
      rw [hpack] at hmiddle
      obtain ⟨c', hthrow, hmemory⟩ := hmiddle
      simp only [bind, EStateM.bind, hpack]
      rw [hthrow]
      exact ⟨c', rfl, hmemory⟩

theorem exitMemory_printOperandPack {args : List Value} {vs : List Prim}
    (h : List.Forall₂ (PacksAs env opts w locals) args vs) (hw : w.Fresh) :
    ∃ is w', printOperandPack opts args w = some (is, w') ∧
      ∀ c : Config, c.locals = locals → exitMemory (run env is none c) =
        some (memoryAfter (packAll (pushed c.memory.stackPointer (pushedSize (operandSize args))) vs
          { c.memory with
            stackPointer := pushed c.memory.stackPointer (pushedSize (operandSize args)) })) := by
  obtain ⟨is, w', hprint, hrun⟩ := run_printOperandPack h hw rfl rfl
  refine ⟨is, w', hprint, fun c hlocals => ?_⟩
  have hexit := hrun c _ hlocals rfl
  generalize pushed c.memory.stackPointer (pushedSize (operandSize args)) = p at hexit ⊢
  cases hpack : packAll p vs { c.memory with stackPointer := p } with
  | ok last m =>
      simp only [bind, EStateM.bind, hpack] at hexit
      rw [show run env is none c = _ from hexit]
      rfl
  | error e m =>
      simp only [bind, EStateM.bind, hpack] at hexit
      obtain ⟨c', hthrow, hmemory⟩ := hexit
      rw [hthrow]
      exact congrArg some hmemory

end calls

/-! ## The block -/

/-- The immediate is the size, and the padded operands fit into the rounded block. -/
def FitsBlock (size : ℕ) (ts : List PrimType) : Prop :=
  (size < 128 ∨ 256 ≤ size ∧ size < 2 ^ 15) ∧ slotsEnd 0 ts ≤ alignUp size 8

theorem toNat_pushedSize (size : ℕ) :
    (pushedSize size).toNat =
      if size < 128 then size
      else if size < 256 then 2 ^ 32 - 256 + size
      else if size % 2 ^ 16 < 2 ^ 15 then size % 2 ^ 16
      else 2 ^ 32 - 2 ^ 16 + size % 2 ^ 16 := by
  have hlt := (pushedSize size).isLt
  have hint : (pushedSize size).toInt =
      if size < 256 then (size : ℤ).bmod (2 ^ 8) else (size : ℤ).bmod (2 ^ 16) := by
    unfold pushedSize
    split_ifs
    · rw [BitVec.toInt_signExtend_of_le (by decide), BitVec.toInt_ofInt]
    · rw [BitVec.toInt_signExtend_of_le (by decide), BitVec.toInt_ofInt]
  rw [toInt_eq, Int.bmod_def, Int.bmod_def] at hint
  simp only [Nat.reducePow, Nat.cast_ofNat] at hint ⊢
  split_ifs at hint ⊢ <;> omega

/-- The address of the block, for an allocation in the middle of the memory. -/
theorem toNat_pushed {sp n : BitVec 32} (hsp : 8 ∣ sp.toNat) :
    8 ∣ (pushed sp n).toNat ∧
      (n.toNat ≤ sp.toNat → (pushed sp n).toNat + alignUp n.toNat 8 = sp.toNat) ∧
      (sp.toNat < n.toNat → (pushed sp n).toNat + alignUp n.toNat 8 = sp.toNat + 2 ^ 32) := by
  have hdown : (pushed sp n).toNat = (sp - n).toNat - (sp - n).toNat % 8 := toNat_alignOffsetDown _
  have hsub := BitVec.toNat_sub sp n
  have hlt := sp.isLt
  have hnlt := n.isLt
  have hup : alignUp n.toNat 8 = n.toNat + (8 - n.toNat % 8) % 8 := rfl
  refine ⟨by omega, fun h => by omega, fun h => by omega⟩

/-- Outside of the block between the new and the old stack pointer nothing changes. -/
def Confined (env : Env) (is : Code) (c : Config) : Prop :=
  ∃ m, exitMemory (run env is none c) = some m ∧
    ∀ x, x < m.stackPointer.toNat ∨ c.memory.stackPointer.toNat ≤ x → m.byte x = c.memory.byte x

section block

variable {size : ℕ} {vs : List Prim}

/-- A chain that fits leaves everything outside of the block alone. -/
theorem packAll_confined (hfits : FitsBlock size (vs.map Prim.type)) {m : Memory}
    (hsp : 8 ∣ m.stackPointer.toNat) {p : BitVec 32}
    (hp : pushed m.stackPointer (pushedSize size) = p) {x : ℕ}
    (hx : x < p.toNat ∨ m.stackPointer.toNat ≤ x) :
    (memoryAfter (packAll p vs { m with stackPointer := p })).byte x = m.byte x := by
  have hn : (pushedSize size).toNat = size := by
    rw [toNat_pushedSize]
    have := hfits.1
    split_ifs <;> omega
  obtain ⟨hdvd, hroom, hwrap⟩ := toNat_pushed (n := pushedSize size) hsp
  rw [hp] at hdvd hroom hwrap
  rw [hn] at hroom hwrap
  have hlt := p.isLt
  have hle : p.toNat + 8 ≤ 2 ^ 32 := by omega
  by_cases hsize : size ≤ m.stackPointer.toNat
  · have hend := hroom hsize
    refine (packAll_frame hle vs).2 x fun s hs => ?_
    have hlo := le_of_mem_slots hs
    have hhi := slot_le_slotsEnd hs
    rw [← Nat.add_zero p.toNat, slotsEnd_add hdvd] at hhi
    have hfit := hfits.2
    omega
  · -- the stack pointer has wrapped around, to where there is no memory
    have hend := hwrap (by omega)
    have hsmall : alignUp size 8 < size + 8 := alignUp_lt size (by decide)
    have htop : memSize ≤ p.toNat := by
      have := hfits.1
      simp only [memSize]
      omega
    rw [packAll_above hle htop]
    rfl

/-- A chain that does not fit has a slot at or above the old stack pointer. -/
theorem exists_slot_outside {ts : List PrimType}
    (hsize : size = (ts.map PrimType.size).sum % 2 ^ 32)
    (hnot : ¬ FitsBlock size ts) {sp p : BitVec 32} (hsp : sp.toNat = 0x20000000)
    (hp : pushed sp (pushedSize size) = p) :
    p.toNat ≤ 0x20010000 ∧ ∃ before t after, ts = before ++ t :: after ∧
      sp.toNat ≤ alignUp (slotsEnd p.toNat before) t.size ∧
      alignUp (slotsEnd p.toNat before) t.size ≤ 0x20010000 := by
  have hsp8 : 8 ∣ sp.toNat := by omega
  obtain ⟨hdvd, hroom, hwrap⟩ := toNat_pushed (n := pushedSize size) hsp8
  rw [hp] at hdvd hroom hwrap
  have hn := toNat_pushedSize size
  have hup := le_alignUp (pushedSize size).toNat 8
  have hup' := alignUp_lt (pushedSize size).toNat (by decide : 0 < 8)
  have hsum := sum_le_slotsEnd 0 ts
  have hlt : size < 2 ^ 32 := hsize ▸ Nat.mod_lt _ (by decide)
  have hmod : size ≤ (ts.map PrimType.size).sum := hsize ▸ Nat.mod_le _ _
  by_cases hneg : (pushedSize size).toNat < 2 ^ 15
  · -- the block ends where it should, and is too short
    have hend := hroom (by omega)
    have hshort : alignUp (pushedSize size).toNat 8 < slotsEnd 0 ts := by
      by_cases hrange : size < 128 ∨ 256 ≤ size ∧ size < 2 ^ 15
      · have heq : (pushedSize size).toNat = size := by split_ifs at hn <;> omega
        rw [heq]
        exact not_le.mp fun hle => hnot ⟨hrange, hle⟩
      · split_ifs at hn <;> omega
    have habove : sp.toNat < slotsEnd p.toNat ts := by
      rw [← Nat.add_zero p.toNat, slotsEnd_add hdvd]
      omega
    refine ⟨by omega, ?_⟩
    obtain ⟨before, t, after, hts, heq⟩ := 
      exists_slot_at (l := sp.toNat) (by omega) (by omega) habove
    exact ⟨before, t, after, hts, by omega, by omega⟩
  · -- a negative size moves the stack pointer up
    have hend := hwrap (by split_ifs at hn <;> omega)
    have hbounds : sp.toNat ≤ p.toNat ∧ p.toNat ≤ 0x20010000 := by
      split_ifs at hn <;> omega
    cases ts with
    | nil =>
        simp only [List.map_nil, List.sum_nil] at hsize
        split_ifs at hn <;> omega
    | cons t ts =>
        have hself : alignUp p.toNat t.size = p.toNat := by
          apply alignUp_eq_self
          rcases t.size_cases with h | h | h | h <;> rw [h] <;> omega
        refine ⟨hbounds.2, [], t, ts, rfl, ?_, ?_⟩ <;> simp only [slotsEnd, hself] <;> omega

end block

/-! ## Every list of operands -/

/-- A memory without absent pages, all bytes of which are `b`. -/
def filled (b : BitVec 8) (sp : BitVec 32) : Memory :=
  { Memory.initial with pages := fun _ => some fun _ => b, stackPointer := sp }

theorem byte_filled (b : BitVec 8) (sp : BitVec 32) {a : ℕ} (ha : a < memSize) :
    (filled b sp).byte a = some b := by
  have hdiv : a / pageSize < pageCount := by
    simp only [memSize, pageSize, pageCount] at ha ⊢
    omega
  simp [Memory.byte, filled, hdiv]

section operands

variable {env : Env} {opts : GenerationOpts} {w : Writer} {vars : List Local} {locals : Locals}

theorem exists_packsAs (hs : Slots w vars) (hv : Valuation w vars locals) {args : List Value}
    (hargs : ∀ v ∈ args, v.In vars ∧ v.Good env opts w.basicblockMap ∧ v.type.prim.isSome) :
    ∃ vs, List.Forall₂ (PacksAs env opts w locals) args vs ∧
      vs.map Prim.type = args.filterMap (·.type.prim) := by
  induction args with
  | nil => exact ⟨[], .nil, rfl⟩
  | cons v args ih =>
      obtain ⟨vs, hvs, htypes⟩ := ih fun u hu => hargs u (List.mem_cons_of_mem v hu)
      obtain ⟨hin, hgood, hprim⟩ := hargs v List.mem_cons_self
      obtain ⟨t, ht⟩ := Option.isSome_iff_exists.mp hprim
      obtain ⟨x, hx, hletter⟩ := exists_operand hs hv hin hgood
      obtain ⟨a, ha, htype⟩ := exists_argument ht hletter
      refine ⟨a :: vs, .cons ⟨x, hx, ha⟩ hvs, ?_⟩
      rw [List.map_cons, htype, htypes]
      simp only [List.filterMap_cons, ht]

theorem operandSize_eq {args : List Value} (h : ∀ v ∈ args, v.type.prim.isSome) :
    operandSize args = ((args.filterMap (·.type.prim)).map PrimType.size).sum % 2 ^ 32 := by
  unfold operandSize
  congr 1
  induction args with
  | nil => rfl
  | cons v args ih =>
      obtain ⟨t, ht⟩ := Option.isSome_iff_exists.mp (h v List.mem_cons_self)
      simp only [List.filterMap_cons, ht, List.map_cons, List.sum_cons, getTypeAllocSize_of_prim ht,
        ih fun u hu => h u (List.mem_cons_of_mem v hu)]

end operands

/-- The operands are packed inside of the block exactly when the size of the block can be
written as an immediate and leaves room for the padding. -/
theorem printOperandPack_confined_iff (env : Env) (opts : GenerationOpts) (w w' : Writer)
    (hw : w.Fresh) (vars : List Local) (hs : Slots w vars) (locals : Locals)
    (hv : Valuation w vars locals) (args : List Value)
    (hargs : ∀ v ∈ args, v.In vars ∧ v.Good env opts w.basicblockMap ∧ v.type.prim.isSome)
    (is : Code) (hprint : printOperandPack opts args w = some (is, w')) :
    (∀ stack m, 8 ∣ m.stackPointer.toNat → Confined env is ⟨locals, stack, m⟩) ↔
      FitsBlock (operandSize args) (args.filterMap (·.type.prim)) := by
  obtain ⟨vs, hvs, htypes⟩ := exists_packsAs hs hv hargs
  obtain ⟨is', w'', hprint', hexit⟩ := exitMemory_printOperandPack hvs hw
  cases hprint.symm.trans hprint'
  have hsize := operandSize_eq fun v hv => (hargs v hv).2.2
  rw [← htypes] at hsize ⊢
  constructor
  · intro hconf
    by_contra hnot
    obtain ⟨sp, hsp⟩ : ∃ sp : BitVec 32, sp.toNat = 0x20000000 := ⟨0x20000000#32, by simp⟩
    obtain ⟨hp, before, t, after, hts, hlo, hhi⟩ := exists_slot_outside hsize hnot hsp rfl
    obtain ⟨vs₁, vs₂, rfl, rfl, hrest⟩ := List.map_eq_append_iff.mp hts
    obtain ⟨v, vs₃, rfl, rfl, rfl⟩ := List.map_eq_cons_iff.mp hrest
    obtain ⟨b, hb⟩ : ∃ b, v.bytes[0]? = some b :=
      ⟨_, List.getElem?_eq_getElem (List.length_pos_iff.mpr v.bytes_ne_nil)⟩
    -- the byte that is written above the block differs from what was there
    have hdvd : 8 ∣ (filled (b + 1#8) sp).stackPointer.toNat := by
      rw [show (filled (b + 1#8) sp).stackPointer = sp from rfl, hsp]
      decide
    obtain ⟨m', hm', hkeep⟩ := hconf [] (filled (b + 1#8) sp) hdvd
    have hm := hexit ⟨locals, [], filled (b + 1#8) sp⟩ rfl
    simp only [show (filled (b + 1#8) sp).stackPointer = sp from rfl] at hm hkeep
    generalize pushed sp (pushedSize (operandSize args)) = p at hp hlo hhi hm
    obtain rfl := Option.some.inj (hm'.symm.trans hm)
    have hmapped : Memory.SlotsMapped { filled (b + 1#8) sp with stackPointer := p } p.toNat
        ((vs₁ ++ [v]).map Prim.type) := by
      intro s hs i hi
      have hend := slot_le_slotsEnd hs
      have hsize := v.type.size_cases
      rw [List.map_append, List.map_singleton, slotsEnd_append] at hend
      have hbyte := byte_filled (b + 1#8) sp (a := s.1 + i) (by simp only [memSize]; omega)
      exact Option.isSome_iff_exists.mpr ⟨_, hbyte⟩
    have hwritten := packAll_writes (by omega) vs₃ hmapped
    have hsame := hkeep _ (.inr hlo)
    rw [hwritten, hb, byte_filled _ _ (by simp only [memSize]; omega)] at hsame
    have hne : b ≠ b + 1#8 := by
      intro heq
      have := congrArg BitVec.toNat heq
      simp [BitVec.toNat_add] at this
      omega
    exact hne (Option.some.inj hsame)
  · intro hfits stack m hsp
    have hle : (pushed m.stackPointer (pushedSize (operandSize args))).toNat + 8 ≤ 2 ^ 32 := by
      have hdvd := (toNat_pushed (n := pushedSize (operandSize args)) hsp).1
      have hlt := (pushed m.stackPointer (pushedSize (operandSize args))).isLt
      omega
    refine ⟨_, hexit ⟨locals, stack, m⟩ rfl, fun x hx => ?_⟩
    rw [(packAll_frame hle vs).1] at hx
    exact packAll_confined hfits hsp rfl hx

theorem printOperandPack_confined_two_ints :
    ∃ is w', printOperandPack ⟨false, false, false, false⟩
        [.const (.int .w32 1), .const (.int .w8 2)] ⟨[], 0, [], 0, 700, none⟩ = some (is, w') ∧
      ∀ stack m, 8 ∣ m.stackPointer.toNat → Confined .plain is ⟨fun _ => none, stack, m⟩ := by
  refine ⟨_, _, rfl, (printOperandPack_confined_iff .plain ⟨false, false, false, false⟩
    ⟨[], 0, [], 0, 700, none⟩ _ (by simp [Writer.Fresh]) [] ⟨by simp, by simp⟩ (fun _ => none)
    ⟨by simp, by simp⟩ [.const (.int .w32 1), .const (.int .w8 2)] ?_ _ rfl).mpr
    ⟨.inl (by decide), by decide⟩⟩
  intro v hv
  simp only [List.mem_cons, List.not_mem_nil, or_false] at hv
  rcases hv with rfl | rfl
  · exact ⟨trivial, good_of_loads (c := ⟨fun _ => none, [], .initial⟩) (x := .int 1)
      (by simp [Writer.Fresh]) ⟨_, _, rfl, rfl⟩ rfl, rfl⟩
  · exact ⟨trivial, good_of_loads (c := ⟨fun _ => none, [], .initial⟩) (x := .int 2)
      (by simp [Writer.Fresh]) ⟨_, _, rfl, rfl⟩ rfl, rfl⟩

/-- For `(i32, i64, i32)` the last operand is written above the block of 16 bytes, where the
frame pointer of the caller was saved. -/
theorem printOperandPack_not_confined :
    ∃ is w' m, printOperandPack ⟨false, false, false, false⟩
        [.const (.int .w32 1), .const (.int .w64 0), .const (.int .w32 1)]
        ⟨[], 0, [], 0, 700, none⟩ = some (is, w') ∧
      (createStackFrame Memory.initial = .ok () m) ∧
      ¬ Confined .plain is ⟨fun _ => none, [], m⟩ := by
  refine ⟨_, _, _, rfl, rfl, ?_⟩
  rintro ⟨m, hm, hkeep⟩
  obtain rfl := Option.some.inj hm
  have hbyte := hkeep 0x3ffffff8 (.inr (by decide +kernel))
  revert hbyte
  decide +kernel

end Llxvm.Backend
