import Llxvm.Backend.Body
import Llxvm.Backend.OperandPack

/-!
# The `va_arg` instruction

The emitted code and the macro of `stdarg.h` move the same cursor, which `Memory.pack` has
moved before them.  The macro aligns it for the type that it reads; the code does not.
-/

namespace Llxvm.Backend

open Llxvm.Jvm Llxvm.Runtime Llxvm.Runtime.Memory Align LittleEndian

/-- The macro `va_arg`: `*(type*)unpack(&ap, sizeof(type))`. -/
def vaArgMacro (addrp : BitVec 32) (type : PrimType) : MemM Prim := do
  let addr ← unpack addrp (Runtime.sizeOf type)
  load addr type

def vaArgMacros (addrp : BitVec 32) : List PrimType → MemM (List Prim)
  | [] => pure []
  | type :: types => do
    let value ← vaArgMacro addrp type
    return value :: (← vaArgMacros addrp types)

/-- The codes that `printVAArgInstruction` prints for some types, run one after the other. -/
def runVAArgs (env : Env) (opts : GenerationOpts) (locals : Locals) (list : Value) :
    Writer → List Ty → Memory → Option (List Val × Memory)
  | _, [], m => some ([], m)
  | w, ty :: tys, m => do
      let (is, w) ← printVAArgInstruction opts list ty w
      match run env is none ⟨locals, [], m⟩ with
      | .fall ⟨_, [v], m⟩ =>
          let (vs, m) ← runVAArgs env opts locals list w tys m
          return (v :: vs, m)
      | _ => none

/-! ## Walks without padding -/

/-- From `a` on, the values of the types stand without padding between them. -/
def Unpadded : ℕ → List PrimType → Prop
  | _, [] => True
  | a, t :: ts => t.size ∣ a ∧ Unpadded (a + t.size) ts

/-- Every value of 8 bytes comes after an even number of values of 4 bytes. -/
def EvenBefore (ts : List PrimType) : Prop :=
  ∀ before t after, ts = before ++ t :: after → t.size = 8 → Even (before.countP (·.size = 4))

theorem forall_split_cons {α : Type} {P : List α → α → Prop} (x : α) (xs : List α) :
    (∀ before y after, x :: xs = before ++ y :: after → P before y) ↔
      P [] x ∧ ∀ before y after, xs = before ++ y :: after → P (x :: before) y := by
  constructor
  · intro h
    exact ⟨h [] x xs rfl, fun before y after heq => h (x :: before) y after (by rw [heq]; rfl)⟩
  · rintro ⟨hx, hxs⟩ before y after heq
    cases before with
    | nil =>
        cases heq
        exact hx
    | cons z before =>
        cases heq
        exact hxs before y after rfl

/-- The position modulo 8 counts the values of 4 bytes. -/
theorem unpadded_iff {a c : ℕ} {ts : List PrimType} (hts : ∀ t ∈ ts, t.size = 4 ∨ t.size = 8)
    (ha : a % 8 = 4 * (c % 2)) :
    Unpadded a ts ↔ ∀ before t after, ts = before ++ t :: after → t.size = 8 →
      Even (c + before.countP (·.size = 4)) := by
  induction ts generalizing a c with
  | nil => simp [Unpadded]
  | cons t ts ih =>
      have hrest : ∀ u ∈ ts, u.size = 4 ∨ u.size = 8 :=
        fun u hu => hts u (List.mem_cons_of_mem t hu)
      rw [forall_split_cons]
      rcases hts t List.mem_cons_self with ht | ht
      · have hnext := ih (a := a + 4) (c := c + 1) hrest (by omega)
        have hdvd : 4 ∣ a := by omega
        simp only [Unpadded, ht, hdvd, hnext, List.countP_cons, decide_true, if_true]
        simp [Nat.add_assoc, Nat.add_comm]
      · have hnext := ih (a := a + 8) (c := c) hrest (by omega)
        have hdvd : 8 ∣ a ↔ Even c := by
          rw [Nat.even_iff]
          omega
        simp only [Unpadded, ht, hdvd, hnext, List.countP_cons, List.countP_nil]
        simp

theorem unpadded_iff_evenBefore {a : ℕ} {ts : List PrimType}
    (hts : ∀ t ∈ ts, t.size = 4 ∨ t.size = 8) (ha : 8 ∣ a) : Unpadded a ts ↔ EvenBefore ts := by
  rw [unpadded_iff (c := 0) hts (by omega), EvenBefore]
  simp

/-! ## One step -/

theorem alignOffsetUp_eq_self {cur : BitVec 32} {t : PrimType}
    (h : alignUp cur.toNat t.size < memSize) :
    alignOffsetUp cur (Runtime.sizeOf t) = cur ↔ t.size ∣ cur.toNat := by
  rw [← alignUp_eq_self_iff t.size_pos, ← toNat_alignOffsetUp t h, BitVec.toNat_inj]

section step

variable {m : Memory} {addrp cur : BitVec 32}

theorem loadI32_of_cell (h : m.Cell addrp cur) : loadI32 addrp m = .ok cur m := by
  have hload : loadBytes addrp 4 m = .ok (leBytes 4 cur) m := by
    simpa using loadBytes_ok (by simp [leBytes]) h.holds (by simpa using h.inPage)
  have hcur : ofLeBytes 32 (leBytes 4 cur) = cur := ofLeBytes_leBytes (by decide) cur
  simp only [loadI32, bind, EStateM.bind, hload, pure, EStateM.pure, hcur]

theorem mapped_of_cell (h : m.Cell addrp cur) : m.Mapped addrp.toNat := by
  simpa using h.holds.mapped (i := 0) (by simp)

/-- The memory after the cursor has been moved. -/
def moved (m : Memory) (addrp cur : BitVec 32) : Memory := m.write addrp.toNat (leBytes 4 cur)

theorem cell_moved (h : m.Cell addrp cur) (next : BitVec 32) :
    (moved m addrp next).Cell addrp next :=
  ⟨holds_write (mapped_of_cell h) (by simpa using h.inPage), h.inPage⟩

theorem moved_inj (h : m.Cell addrp cur) {next next' : BitVec 32}
    (heq : moved m addrp next = moved m addrp next') : next = next' := by
  have hnext := loadI32_of_cell (cell_moved h next)
  rw [heq, loadI32_of_cell (cell_moved h next')] at hnext
  cases hnext
  rfl

theorem slotsHold_moved {a : ℕ} {vs : List Prim} (h : m.Cell addrp cur)
    (hd : CellApart addrp.toNat a (vs.map Prim.type)) (hold : m.SlotsHold a vs) (next : BitVec 32) :
    (moved m addrp next).SlotsHold a vs :=
  hold.write_of_apart (mapped_of_cell h) (by simpa using h.inPage) (by simp) hd

/-- Wherever the cursor is moved, the value stays in its slot. -/
theorem load_slot {v : Prim} {vs : List Prim} (h : m.Cell addrp cur)
    (hm : m.SlotsMapped cur.toNat ((v :: vs).map Prim.type))
    (hold : m.SlotsHold cur.toNat (v :: vs))
    (hd : CellApart addrp.toNat cur.toNat ((v :: vs).map Prim.type)) (next : BitVec 32) :
    load (alignOffsetUp cur (Runtime.sizeOf v.type)) v.type (moved m addrp next) =
      .ok v (moved m addrp next) := by
  have hhead : m.Mapped (alignUp cur.toNat v.type.size) := hm.head
  apply load_ok <;> rw [toNat_alignOffsetUp v.type hhead.lt_memSize]
  · exact (slotsHold_moved h hd hold next).1
  · exact inPage_slot _ _

/-- The macro reads the slot of the value, and moves the cursor behind it. -/
theorem vaArgMacro_ok {v : Prim} {vs : List Prim} (h : m.Cell addrp cur)
    (hm : m.SlotsMapped cur.toNat ((v :: vs).map Prim.type))
    (hold : m.SlotsHold cur.toNat (v :: vs))
    (hd : CellApart addrp.toNat cur.toNat ((v :: vs).map Prim.type)) :
    vaArgMacro addrp v.type m = .ok v (moved m addrp
      (alignOffsetUp cur (Runtime.sizeOf v.type) + Runtime.sizeOf v.type)) := by
  simp only [vaArgMacro, bind, EStateM.bind, unpack_ok v.type h]
  exact load_slot h hm hold hd _

end step

/-! ## The emitted code -/

section code

variable {env : Env} {opts : GenerationOpts} {w : Writer} {locals : Locals} {list : Value}
  {addrp cur : BitVec 32}

/-- The exit of code that ends with a load. -/
def loaded (locals : Locals) (addr : BitVec 32) : EStateM.Result Throwable Memory Prim → Exit
  | .ok v m => .fall ⟨locals, [result v], m⟩
  | .error e m => .throw e ⟨locals, [.int addr], m⟩

theorem run_load_call {d : TypeID} {t : PrimType} (hd : primType d = some t) (addr : BitVec 32)
    (m : Memory) :
    run env [.invokestatic (.load d)] none ⟨locals, [.int addr], m⟩ =
      loaded locals addr (load addr t m) := by
  have hinvoke : invoke env (.load d) [.int addr] =
      some (do return some (result (← load addr t))) := by
    have hpure : invokePure env (.load d) [.int addr] = none := rfl
    have hmemory : invokeMemory env (.load d) [.int addr] =
        (primType d).bind fun t => some (do return some (result (← load addr t))) := rfl
    rw [invoke, hpure, hmemory, hd]
    rfl
  have htake : (([.int addr] : List Val).take (MethodRef.load d).arity).reverse = [.int addr] := rfl
  simp only [run, step, htake, hinvoke, bind, EStateM.bind]
  cases load addr t m with
  | ok v m' => rfl
  | error e m' => rfl

theorem run_store_call {m : Memory} (h : m.Cell addrp cur) (next : BitVec 32) (s : List Val) :
    run env [.invokestatic (.store .I)] none ⟨locals, .int next :: .int addrp :: s, m⟩ =
      .fall ⟨locals, s, moved m addrp next⟩ := by
  have hinvoke : invoke env (.store .I) [.int addrp, .int next] =
      some (do store addrp (.int next); return none) := rfl
  have htake : ((.int next :: .int addrp :: s : List Val).take (MethodRef.store .I).arity).reverse =
      [.int addrp, .int next] := rfl
  have hstore : store addrp (.int next) m = .ok () (moved m addrp next) :=
    storeBytes_ok (mapped_of_cell h) (by simpa using h.inPage)
  simp only [run, step, htake, hinvoke, bind, EStateM.bind, hstore]
  rfl

theorem run_printPtrLoad_size (t : PrimType) (c : Config) :
    run env (printPtrLoad opts t.size) none c = .fall (c.push (.int (Runtime.sizeOf t))) := by
  cases t <;> rfl

theorem Operand.congr {w' : Writer} {v : Value} {x : Val} (h : Operand env opts w locals v x)
    (hvars : w'.localVars = w.localVars) (hblocks : w'.basicblockMap = w.basicblockMap) :
    Operand env opts w' locals v x :=
  fun w₁ hw₁ hvars₁ hblocks₁ => h w₁ hw₁ (hvars₁.trans hvars) (hblocks₁.trans hblocks)

/-- The emitted code reads where the cursor points, and moves it by the size of the type. -/
theorem run_printVAArgInstruction (hw : w.Fresh)
    (hlist : Operand env opts w locals list (.int addrp)) {ty : Ty} {t : PrimType}
    (ht : ty.prim = some t) :
    ∃ is w', printVAArgInstruction opts list ty w = some (is, w') ∧ w'.Fresh ∧
      Operand env opts w' locals list (.int addrp) ∧
      ∀ m cur, m.Cell addrp cur → run env is none ⟨locals, [], m⟩ =
        loaded locals cur (load cur t (moved m addrp (cur + Runtime.sizeOf t))) := by
  obtain ⟨first, w₁, hfirst, hemit₁, hrun₁⟩ := hlist w hw rfl rfl
  obtain ⟨second, w₂, hsecond, hemit₂, hrun₂⟩ :=
    hlist w₁ (hemit₁.fresh hw) hemit₁.localVars hemit₁.basicblockMap
  have hemit := hemit₁.trans hemit₂
  have htype : primType (getTypeDescriptor ty false) = some t := by
    rw [primType_getTypeDescriptor (by rw [ht]; rfl), ht]
  refine ⟨_, w₂, by simp only [printVAArgInstruction, printIndirectLoad, emit_bind, emit_pure,
    hfirst, hsecond, Option.bind_some]; rfl, hemit.fresh hw,
    hlist.congr hemit.localVars hemit.basicblockMap, fun m cur hcell => ?_⟩
  have hcur : run env [.invokestatic (.load (getTypeDescriptor .pointer false))] none
      (Config.push ⟨locals, [], m⟩ (.int addrp)) = .fall ⟨locals, [.int cur], m⟩ := by
    have hload : load addrp .int m = .ok (.int cur) m := by
      simp only [load, bind, EStateM.bind, loadI32_of_cell hcell, pure, EStateM.pure]
    have hcall : run env [.invokestatic (.load .I)] none ⟨locals, [.int addrp], m⟩ =
        loaded locals addrp (load addrp .int m) := run_load_call rfl addrp m
    rw [hload] at hcall
    exact hcall
  have hdup : run env [.dup] none ⟨locals, [.int cur], m⟩ =
      .fall ⟨locals, [.int cur, .int cur], m⟩ := rfl
  have hadd : run env [.arith .i .add] none
      (Config.push ⟨locals, [.int cur, .int cur], m⟩ (.int (Runtime.sizeOf t))) =
      .fall ⟨locals, [.int (cur + Runtime.sizeOf t), .int cur], m⟩ := rfl
  have hswap : run env [.swap] none
      (Config.push ⟨locals, [.int (cur + Runtime.sizeOf t), .int cur], m⟩ (.int addrp)) =
      .fall ⟨locals, [.int (cur + Runtime.sizeOf t), .int addrp, .int cur], m⟩ := rfl
  have hstore : run env [.invokestatic (.store .I)] none
      ⟨locals, [.int (cur + Runtime.sizeOf t), .int addrp, .int cur], m⟩ =
      .fall ⟨locals, [.int cur], moved m addrp (cur + Runtime.sizeOf t)⟩ :=
    run_store_call hcell _ _
  have hsplit : ([.swap, .invokestatic (.store (getTypeDescriptor .pointer false)),
      .invokestatic (.load (getTypeDescriptor ty false))] : Code) =
      [.swap] ++ ([.invokestatic (.store .I)] ++
        [.invokestatic (.load (getTypeDescriptor ty false))]) := rfl
  rw [getTypeAllocSize_of_prim ht, hsplit]
  simp only [List.append_assoc]
  rw [run_append_of_fall (hrun₁ _ rfl), run_append_of_fall hcur, run_append_of_fall hdup,
    run_append_of_fall (run_printPtrLoad_size t _), run_append_of_fall hadd,
    run_append_of_fall (hrun₂ _ rfl), run_append_of_fall hswap, run_append_of_fall hstore,
    run_load_call htype]

end code

/-! ## Whole walks -/

/-- Step by step, the code reads the given values and leaves the same memory as the macro. -/
def VaArgAgrees (env : Env) (opts : GenerationOpts) (w : Writer) (locals : Locals) (list : Value)
    (addrp : BitVec 32) (tys : List Ty) (vs : List Prim) (m : Memory) : Prop :=
  ∀ k ≤ vs.length, ∃ m', vaArgMacros addrp ((vs.take k).map Prim.type) m = .ok (vs.take k) m' ∧
    runVAArgs env opts locals list w (tys.take k) m = some ((vs.take k).map result, m')

section walk

variable {env : Env} {opts : GenerationOpts} {w : Writer} {locals : Locals} {list : Value}
  {addrp cur : BitVec 32} {m : Memory}

theorem vaArgMacros_cons {t : PrimType} {ts : List PrimType} {v : Prim} {m₁ : Memory}
    (h : vaArgMacro addrp t m = .ok v m₁) {vs : List Prim} {m' : Memory} :
    vaArgMacros addrp (t :: ts) m = .ok (v :: vs) m' ↔ vaArgMacros addrp ts m₁ = .ok vs m' := by
  simp only [vaArgMacros, bind, EStateM.bind, h]
  cases vaArgMacros addrp ts m₁ with
  | ok us m₂ => simp [pure, EStateM.pure]
  | error e m₂ => simp

theorem runVAArgs_cons {ty : Ty} {tys : List Ty} {is : Code} {w' : Writer}
    (hprint : printVAArgInstruction opts list ty w = some (is, w')) {x : Val} {m₁ : Memory}
    (hrun : run env is none ⟨locals, [], m⟩ = .fall ⟨locals, [x], m₁⟩) {xs : List Val}
    {m' : Memory} :
    runVAArgs env opts locals list w (ty :: tys) m = some (x :: xs, m') ↔
      runVAArgs env opts locals list w' tys m₁ = some (xs, m') := by
  simp only [runVAArgs, hprint, hrun, bind, Option.bind_some]
  cases runVAArgs env opts locals list w' tys m₁ with
  | none => simp
  | some r => simp [Prod.ext_iff, pure]

/-- A walk that ends has loaded its first value. -/
theorem runVAArgs_cons_inv {ty : Ty} {tys : List Ty} {is : Code} {w' : Writer}
    (hprint : printVAArgInstruction opts list ty w = some (is, w')) {t : PrimType} {m₁ : Memory}
    (hrun : run env is none ⟨locals, [], m⟩ = loaded locals cur (load cur t m₁)) {xs : List Val}
    {m' : Memory} (h : runVAArgs env opts locals list w (ty :: tys) m = some (xs, m')) :
    ∃ xs', runVAArgs env opts locals list w' tys m₁ = some (xs', m') := by
  cases hload : load cur t m₁ with
  | ok u m₂ =>
      obtain ⟨-, -, -, -, -, rfl⟩ := load_inv hload
      rw [hload] at hrun
      simp only [runVAArgs, hprint, hrun, loaded, bind, Option.bind_some] at h
      cases hrest : runVAArgs env opts locals list w' tys m₂ with
      | none => simp [hrest] at h
      | some r =>
          rw [hrest] at h
          cases h
          exact ⟨r.1, rfl⟩
  | error e m₂ =>
      rw [hload] at hrun
      simp [runVAArgs, hprint, hrun, loaded] at h

/-- The walks agree if the first slot is where the cursor points, and the remaining walks
agree. -/
theorem vaArgAgrees_cons (hw : w.Fresh) (hlist : Operand env opts w locals list (.int addrp))
    {ty : Ty} (tys : List Ty) {v : Prim} {vs : List Prim} (hty : ty.prim = some v.type)
    (h : m.Cell addrp cur) (hm : m.SlotsMapped cur.toNat ((v :: vs).map Prim.type))
    (hold : m.SlotsHold cur.toNat (v :: vs))
    (hd : CellApart addrp.toNat cur.toNat ((v :: vs).map Prim.type)) :
    ∃ w', w'.Fresh ∧ Operand env opts w' locals list (.int addrp) ∧
      (VaArgAgrees env opts w locals list addrp (ty :: tys) (v :: vs) m ↔
        v.type.size ∣ cur.toNat ∧ VaArgAgrees env opts w' locals list addrp tys vs
          (moved m addrp (cur + Runtime.sizeOf v.type))) := by
  obtain ⟨is, w', hprint, hw', hlist', hrun⟩ := run_printVAArgInstruction hw hlist hty
  have hmacro := vaArgMacro_ok h hm hold hd
  have hself := alignOffsetUp_eq_self hm.head.lt_memSize
  -- at an aligned address both read the value and move the cursor alike
  have hstep : v.type.size ∣ cur.toNat → ∀ k m',
      (vaArgMacros addrp (((v :: vs).take (k + 1)).map Prim.type) m =
          .ok ((v :: vs).take (k + 1)) m' ∧
        runVAArgs env opts locals list w ((ty :: tys).take (k + 1)) m =
          some (((v :: vs).take (k + 1)).map result, m')) ↔
      (vaArgMacros addrp ((vs.take k).map Prim.type) (moved m addrp (cur + Runtime.sizeOf v.type)) =
          .ok (vs.take k) m' ∧
        runVAArgs env opts locals list w' (tys.take k)
          (moved m addrp (cur + Runtime.sizeOf v.type)) = some ((vs.take k).map result, m')) := by
    intro hdvd k m'
    have hload := load_slot h hm hold hd (cur + Runtime.sizeOf v.type)
    rw [hself.mpr hdvd] at hload hmacro
    have hcode := hrun m cur h
    rw [hload] at hcode
    simp only [List.take_succ_cons, List.map_cons]
    rw [vaArgMacros_cons hmacro, runVAArgs_cons hprint hcode]
  refine ⟨w', hw', hlist', ?_, ?_⟩
  · intro hagrees
    have hdvd : v.type.size ∣ cur.toNat := by
      obtain ⟨m', hfirst, hcode⟩ := hagrees 1 (by simp)
      simp only [List.take_succ_cons, List.take_zero, List.map_cons, List.map_nil] at hfirst hcode
      rw [vaArgMacros_cons hmacro] at hfirst
      obtain ⟨xs, hrest⟩ := runVAArgs_cons_inv hprint (hrun m cur h) hcode
      have hmoved : moved m addrp (alignOffsetUp cur (Runtime.sizeOf v.type) +
          Runtime.sizeOf v.type) = moved m addrp (cur + Runtime.sizeOf v.type) :=
        (EStateM.Result.ok.inj hfirst).2.trans (congrArg Prod.snd (Option.some.inj hrest)).symm
      apply hself.mp
      exact (BitVec.add_left_inj _).mp (moved_inj h hmoved)
    refine ⟨hdvd, fun k hk => ?_⟩
    obtain ⟨m', hboth⟩ := hagrees (k + 1) (by simpa using hk)
    exact ⟨m', (hstep hdvd k m').mp hboth⟩
  · rintro ⟨hdvd, hagrees⟩ k hk
    cases k with
    | zero => exact ⟨m, rfl, rfl⟩
    | succ k =>
        obtain ⟨m', hboth⟩ := hagrees k (by simpa using hk)
        exact ⟨m', (hstep hdvd k m').mpr hboth⟩

/-- The walks agree exactly when there is no padding between the values. -/
theorem vaArgAgrees_iff_unpadded (hw : w.Fresh)
    (hlist : Operand env opts w locals list (.int addrp)) {tys : List Ty} {vs : List Prim}
    (htys : List.Forall₂ (fun ty v => ty.prim = some v.type) tys vs) (h : m.Cell addrp cur)
    (hm : m.SlotsMapped cur.toNat (vs.map Prim.type)) (hold : m.SlotsHold cur.toNat vs)
    (hd : CellApart addrp.toNat cur.toNat (vs.map Prim.type)) :
    VaArgAgrees env opts w locals list addrp tys vs m ↔ Unpadded cur.toNat (vs.map Prim.type) := by
  induction htys generalizing w m cur with
  | nil =>
      refine ⟨fun _ => trivial, fun _ k hk => ?_⟩
      obtain rfl : k = 0 := by simpa using hk
      exact ⟨m, rfl, rfl⟩
  | @cons ty v tys vs hty htys ih =>
      obtain ⟨w', hw', hlist', hiff⟩ := vaArgAgrees_cons hw hlist tys hty h hm hold hd
      rw [hiff]
      refine and_congr_right fun hdvd => ?_
      -- the next value stands right behind this one
      have hlt := hm.head.lt_memSize
      have hnext : (cur + Runtime.sizeOf v.type).toNat = cur.toNat + v.type.size := by
        have hslot := toNat_slot_add_size v.type hlt
        rwa [(alignOffsetUp_eq_self hlt).mpr hdvd, alignUp_eq_self hdvd] at hslot
      have htail : m.SlotsMapped (cur.toNat + v.type.size) (vs.map Prim.type) := by
        have := hm.tail
        rwa [alignUp_eq_self hdvd] at this
      have hrest : m.SlotsHold (cur.toNat + v.type.size) vs := by
        have := hold.2
        rwa [alignUp_eq_self hdvd] at this
      have happart : CellApart addrp.toNat (cur.toNat + v.type.size) (vs.map Prim.type) := by
        intro s hs
        apply hd s
        rw [List.map_cons, slots, alignUp_eq_self hdvd]
        exact List.mem_cons_of_mem _ hs
      rw [← hnext] at htail hrest happart ⊢
      exact ih hw' hlist' (cell_moved h _) htail.write (slotsHold_moved h happart hrest _) happart

end walk

/-! ## Packed values -/

/-- The types that C passes to a variadic function. -/
def vaTypes : List Ty := [.int .w32, .int .w64, .double, .pointer]

theorem size_of_vaTypes {ty : Ty} (h : ty ∈ vaTypes) {t : PrimType} (ht : ty.prim = some t) :
    t.size = 4 ∨ t.size = 8 := by
  simp only [vaTypes, List.mem_cons, List.not_mem_nil, or_false] at h
  rcases h with rfl | rfl | rfl | rfl <;> cases ht <;> decide

theorem size_of_forall₂ {tys : List Ty} (hva : ∀ ty ∈ tys, ty ∈ vaTypes) {vs : List Prim}
    (htys : List.Forall₂ (fun ty v => ty.prim = some v.type) tys vs) :
    ∀ t ∈ vs.map Prim.type, t.size = 4 ∨ t.size = 8 := by
  induction htys with
  | nil => simp
  | @cons ty v tys vs hty _ ih =>
      have hrest := ih fun u hu => hva u (List.mem_cons_of_mem ty hu)
      rw [List.map_cons]
      exact List.forall_mem_cons.mpr ⟨size_of_vaTypes (hva ty List.mem_cons_self) hty, hrest⟩

/-- The code of `va_arg` reads the packed values as the macro does exactly when every value of
8 bytes comes after an even number of values of 4 bytes. -/
theorem vaArgAgrees_iff (env : Env) (opts : GenerationOpts) (w : Writer) (hw : w.Fresh)
    (locals : Locals) (list : Value) (addrp : BitVec 32)
    (hlist : Operand env opts w locals list (.int addrp)) (tys : List Ty)
    (hva : ∀ ty ∈ tys, ty ∈ vaTypes) (vs : List Prim)
    (htys : List.Forall₂ (fun ty v => ty.prim = some v.type) tys vs) (a last : BitVec 32)
    (ha : 8 ∣ a.toNat) (m₀ m : Memory) (hpack : packAll a vs m₀ = .ok last m)
    (hcell : loadI32 addrp m = .ok a m)
    (hd : CellApart addrp.toNat a.toNat (vs.map Prim.type)) :
    VaArgAgrees env opts w locals list addrp tys vs m ↔ EvenBefore (vs.map Prim.type) := by
  have hroom : a.toNat + 8 ≤ 2 ^ 32 := by
    have := a.isLt
    omega
  have hmapped := slotsMapped_of_packAll hroom hpack
  obtain ⟨last', m', hpack', hold, -, hmap, -⟩ := packAll_ok hmapped
  cases hpack.symm.trans hpack'
  rw [← unpadded_iff_evenBefore (size_of_forall₂ hva htys) ha]
  exact vaArgAgrees_iff_unpadded hw hlist htys (cell_of_loadI32 hcell)
    (fun s hs i hi => (hmap _).mpr (hmapped s hs i hi)) hold hd

theorem vaArgAgrees_even :
    ∃ last m, packAll 0x3fffffe0#32 [.int 1, .int 2, .long (-2)]
        (Memory.initial.write 0x3ffffff8 (leBytes 4 0x3fffffe0#32)) = .ok last m ∧
      VaArgAgrees .plain ⟨false, false, false, false⟩ ⟨[(1, 3)], 4, [], 0, 700, none⟩
        (fun n => if n = 3 then some (.int 0x3ffffff8#32) else none) (.var ⟨1, .pointer⟩)
        0x3ffffff8#32 [.int .w32, .pointer, .int .w64] [.int 1, .int 2, .long (-2)] m := by
  refine ⟨_, _, rfl, (vaArgAgrees_iff .plain ⟨false, false, false, false⟩
    ⟨[(1, 3)], 4, [], 0, 700, none⟩ (by simp [Writer.Fresh])
    (fun n => if n = 3 then some (.int 0x3ffffff8#32) else none) (.var ⟨1, .pointer⟩) 0x3ffffff8#32
    (operand_var (by exact rfl : Writer.Has _ ⟨1, .pointer⟩ 3) (by exact rfl) (by exact rfl))
      [.int .w32, .pointer, .int .w64] (by simp [vaTypes])
    [.int 1, .int 2, .long (-2)] (.cons rfl (.cons rfl (.cons rfl .nil))) 0x3fffffe0#32 _
    (by decide) (Memory.initial.write 0x3ffffff8 (leBytes 4 0x3fffffe0#32)) _ rfl rfl
    (by decide)).mpr ?_⟩
  exact (unpadded_iff_evenBefore (a := 0) (by decide) (by decide)).mp
    ⟨by decide, by decide, by decide, trivial⟩

/-- For `(i32, i64)` the code reads the padding and the lower half of the second value. -/
theorem vaArgDiffers_i32_i64 :
    ∃ last m, packAll 0x3fffffe0#32 [.int 1, .long 2]
        (Memory.initial.write 0x3ffffff8 (leBytes 4 0x3fffffe0#32)) = .ok last m ∧
      loadI32 0x3ffffff8#32 m = .ok 0x3fffffe0#32 m ∧
      (∃ m', vaArgMacros 0x3ffffff8#32 [.int, .long] m = .ok [.int 1, .long 2] m') ∧
      (runVAArgs .plain ⟨false, false, false, false⟩
        (fun n => if n = 3 then some (.int 0x3ffffff8#32) else none) (.var ⟨1, .pointer⟩)
        ⟨[(1, 3)], 4, [], 0, 700, none⟩ [.int .w32, .int .w64] m).map Prod.fst =
          some [.int 1, .long 0x200000000] := by
  refine ⟨_, _, rfl, rfl, ⟨_, rfl⟩, rfl⟩

end Llxvm.Backend
