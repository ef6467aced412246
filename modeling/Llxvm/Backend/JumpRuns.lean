import Llxvm.Backend.CatchJump
import Llxvm.Runtime.Jump

/-!
# Runs with jumps

Translated methods call each other, return, and call `setjmp` and `longjmp`.  A run is followed with
the history of the stack and all calls of `setjmp`.
-/

namespace Llxvm.Backend

open Llxvm.Jvm Llxvm.Runtime Memory LittleEndian

/-! ## Runs -/

/-- The running methods, the innermost one first, and the state of the runtime. -/
structure System where
  jumps : Jump.Jumps
  activations : List Activation

/-- A call of `setjmp`: the activation, the local variable that keeps its number, the buffer, the
number, and the registers at the time of the call. -/
structure SetjmpCall where
  serial : ℕ
  site : ℕ
  env : BitVec 32
  id : BitVec 32
  registers : Registers

/-- A buffer is in a block of an open frame, or below the stack. -/
def Owned (sh : Shadow) (b : Block) : Prop :=
  b.base + b.size ≤ stackBottom ∨
    ∃ c ∈ sh.live, c.base ≤ b.base ∧ b.base + b.size ≤ c.base + c.size

/-- The last call for a buffer; the calls are in the opposite order. -/
def lastFor (calls : List SetjmpCall) (env : BitVec 32) : Option SetjmpCall :=
  calls.find? fun k => k.env = env

/-- The last call at a place in a method by an activation. -/
def lastAt (calls : List SetjmpCall) (serial site : ℕ) : Option SetjmpCall :=
  calls.find? fun k => k.serial = serial ∧ k.site = site

def serials (acts : List Activation) : List ℕ := acts.map Activation.serial

def Live (acts : List Activation) (k : SetjmpCall) : Prop := k.serial ∈ serials acts

section run

variable (jvm : Env) (math : MathFunction → List (BitVec 64) → BitVec 64)

/-- The states that are reached.  Allocations stay in the stack, the heap does not grow up to it,
and stores respect the saved frame pointers and the buffers of live activations; `longjmp` is called
for a buffer that was filled by a live activation last. -/
inductive JumpRun : System → Shadow → List SetjmpCall → Prop
  | start : JumpRun ⟨⟨0#32, Memory.initial⟩, []⟩ ⟨[], []⟩ []
  | call {j : Jump.Jumps} {act : Activation} {acts : List Activation} {sh : Shadow}
      {calls : List SetjmpCall} {arguments : Locals} {stack : List Val} {m : Memory}
      (h : JumpRun ⟨j, acts⟩ sh calls) (hacts : ∀ a ∈ acts, a.serial ≠ act.serial)
      (hcalls : ∀ k ∈ calls, k.serial ≠ act.serial)
      (hprologue : runLines jvm math act.method.text.prologue none ⟨arguments, [], j.memory⟩ =
        .fall ⟨act.locals, stack, m⟩) :
      JumpRun ⟨{ j with memory := m }, act :: acts⟩
        ⟨[], ⟨j.memory.registers, sh.blocks⟩ :: sh.frames⟩ calls
  | ret {j : Jump.Jumps} {act : Activation} {acts : List Activation} {sh : Shadow}
      {calls : List SetjmpCall} {m : Memory} (h : JumpRun ⟨j, act :: acts⟩ sh calls)
      (hexec : Memory.destroyStackFrame j.memory = .ok () m) :
      JumpRun ⟨{ j with memory := m }, acts⟩ (sh.close 1) calls
  | setjmp {j j' : Jump.Jumps} {act : Activation} {acts : List Activation} {sh : Shadow}
      {calls : List SetjmpCall} {operands : Code} {n : ℕ} {env id : BitVec 32} {locals : Locals}
      {stack : List Val} (h : JumpRun ⟨j, act :: acts⟩ sh calls)
      (hsite : act.method.text.CallsSetjmp operands n)
      (hoperands : run jvm operands none ⟨act.locals, [], j.memory⟩ =
        .fall ⟨act.locals, [.int env], j.memory⟩) (hexec : Jump.setjmp env j = .ok id j')
      (hstore : run jvm (storeJump n) none ⟨act.locals, [.int id], j'.memory⟩ =
        .fall ⟨locals, stack, j'.memory⟩) (howned : Owned sh (Jump.buffer env))
      (hdisjoint : ∀ k ∈ calls, Live (act :: acts) k →
        k.env = env ∨ (Jump.buffer k.env).Disjoint (Jump.buffer env)) :
      JumpRun ⟨j', { act with locals := locals } :: acts⟩ sh
        (⟨act.serial, n, env, id, j.memory.registers⟩ :: calls)
  | longjmp {j j' : Jump.Jumps} {acts : List Activation} {sh : Shadow} {calls : List SetjmpCall}
      {k : SetjmpCall} {val id value : BitVec 32} {l : Landing} (h : JumpRun ⟨j, acts⟩ sh calls)
      (hlast : lastFor calls k.env = some k) (hlive : Live acts k)
      (hexec : Jump.longjmp k.env val j = .error (.jump id value) j')
      (hunwind : unwind jvm math id value j'.memory acts = some l) :
      JumpRun ⟨{ j' with memory := l.memory }, l.act :: l.outer⟩
        (sh.close (acts.length - (l.outer.length + 1))) calls
  | allocateStack {j : Jump.Jumps} {acts : List Activation} {sh : Shadow} {calls : List SetjmpCall}
      {m : Memory} {n p : BitVec 32} (h : JumpRun ⟨j, acts⟩ sh calls) (hn : 0 ≤ n.toInt)
      (hexec : Memory.allocateStack n j.memory = .ok p m)
      (hroom : (stackBottom : ℤ) ≤ m.stackPointer.toInt) :
      JumpRun ⟨{ j with memory := m }, acts⟩ ⟨⟨p.toNat, n.toNat⟩ :: sh.blocks, sh.frames⟩ calls
  | store {j : Jump.Jumps} {acts : List Activation} {sh : Shadow} {calls : List SetjmpCall}
      {m : Memory} (h : JumpRun ⟨j, acts⟩ sh calls) (hguard : ¬ m.Mapped (stackBottom - 8))
      (hregisters : m.registers = j.memory.registers)
      (hframes : ∀ f ∈ sh.frames, ∀ i < 4, m.byte (f.slot.base + i) =
        j.memory.byte (f.slot.base + i))
      (hbuffers : ∀ k ∈ calls, Live acts k → ∀ x, k.env.toNat ≤ x → x < k.env.toNat + 8 →
        m.byte x = j.memory.byte x) : JumpRun ⟨{ j with memory := m }, acts⟩ sh calls
  | assign {j : Jump.Jumps} {act : Activation} {acts : List Activation} {sh : Shadow}
      {calls : List SetjmpCall} {locals : Locals} (h : JumpRun ⟨j, act :: acts⟩ sh calls)
      (hlocals : ∀ n ∈ act.comparedVars, locals n = act.locals n) :
      JumpRun ⟨j, { act with locals := locals } :: acts⟩ sh calls

/-- `longjmp` returns from a call of `setjmp`: no handler of an inner activation keeps the jump, and
its own one goes on at the only label behind the call, with the value and the registers of then. -/
def ReturnsTo (s : System) (val : BitVec 32) (k : SetjmpCall) : Prop :=
  ∃ id value j inner act outer locals,
    Jump.longjmp k.env val s.jumps = .error (.jump id value) j ∧
    s.activations = inner ++ act :: outer ∧ act.serial = k.serial ∧
    unwind jvm math id value j.memory s.activations =
      some ⟨.setjmp k.site, [.int (if val = 0#32 then 1#32 else val)], j.memory,
        { act with locals := locals }, outer⟩ ∧
    (labels act.method.text.lines).count (.setjmp k.site) = 1 ∧
    j.memory.stackDepth = k.registers.stackDepth ∧
    j.memory.framePointer = k.registers.framePointer

end run

/-! ## Buffers -/

section buffers

variable {m : Memory} {sh : Shadow} {b : Block}

theorem Owned.mono {sh' : Shadow} (h : Owned sh b) (hsub : sh.live ⊆ sh'.live) : Owned sh' b :=
  h.imp_right fun ⟨c, hc, hwithin⟩ => ⟨c, hsub hc, hwithin⟩

/-- A buffer is below the stack or above the stack pointer. -/
theorem Owned.bounds (h : Owned sh b) (hchain : FrameChain m m.registers sh.blocks sh.frames) :
    b.base + b.size ≤ stackBottom ∨ m.stackPointer.toNat ≤ b.base := by
  refine h.imp_right fun ⟨c, hc, hlo, _⟩ => ?_
  exact (hchain.live_bounds hc).1.trans hlo

theorem Owned.slot_disjoint (h : Owned sh b)
    (hchain : FrameChain m m.registers sh.blocks sh.frames) {f : OpenFrame} (hf : f ∈ sh.frames) :
    b.base + b.size ≤ f.slot.base ∨ f.slot.base + 4 ≤ b.base := by
  rcases h with hbelow | ⟨c, hc, hlo, hhi⟩
  · have hbottom := hchain.good.bottom
    have hslot := hchain.le_slot hf
    simp only [OpenFrame.slot]
    exact .inl (by omega)
  · have hdisjoint := hchain.live_slot_disjoint hc hf
    simp only [Block.Disjoint, OpenFrame.slot] at hdisjoint ⊢
    omega

end buffers

/-! ## The invariant -/

/-- What is known of a call whose activation is live, with `depth` activations inside of it. -/
structure Pending (m : Memory) (sh : Shadow) (depth : ℕ) (k : SetjmpCall) : Prop where
  owned : Owned (sh.close depth) (Jump.buffer k.env)
  stackDepth : (closedRegisters m.registers sh.frames depth).stackDepth = k.registers.stackDepth
  framePointer :
    (closedRegisters m.registers sh.frames depth).framePointer = k.registers.framePointer

def SetjmpCall.mark (k : SetjmpCall) : Escapes.Mark ℕ ℕ (BitVec 32) := ⟨k.serial, k.site, k.id⟩

/-- The frames of the stack are those of the activations; the buffers and the local variables have
what the calls have put there. -/
structure JumpInv (s : System) (sh : Shadow) (calls : List SetjmpCall) : Prop where
  chain : FrameChain s.jumps.memory s.jumps.memory.registers sh.blocks sh.frames
  guard : ¬ s.jumps.memory.Mapped (stackBottom - 8)
  length : sh.frames.length = s.activations.length
  initialised : ∀ act ∈ s.activations, act.Initialised
  numJumps : s.jumps.numJumps = BitVec.ofNat 32 calls.length
  ids : ∀ k ∈ calls, 0 < k.id.toNat ∧ k.id.toNat ≤ calls.length
  sites : ∀ k ∈ calls, ∀ act ∈ s.activations, act.serial = k.serial →
    ∃ operands, act.method.text.CallsSetjmp operands k.site
  pending : ∀ k ∈ calls, ∀ depth : ℕ, (serials s.activations)[depth]? = some k.serial →
    Pending s.jumps.memory sh depth k
  saved : ∀ env k, lastFor calls env = some k → Live s.activations k →
    Jump.Saved s.jumps.memory env k.id k.registers.stackDepth
  escapes : Escapes.Run (s.activations.map Activation.frame) (calls.map SetjmpCall.mark)

section steps

variable {jvm : Env} {math : MathFunction → List (BitVec 64) → BitVec 64} {j j' : Jump.Jumps}
  {act : Activation} {acts : List Activation} {sh : Shadow} {calls : List SetjmpCall}

theorem mem_of_lastFor {env : BitVec 32} {k : SetjmpCall} (h : lastFor calls env = some k) :
    k ∈ calls ∧ k.env = env :=
  ⟨List.mem_of_find?_eq_some h, by simpa using List.find?_some h⟩

theorem JumpInv.start : JumpInv ⟨⟨0#32, Memory.initial⟩, []⟩ ⟨[], []⟩ [] where
  chain := stackInv_initial.chain
  guard := by decide
  length := rfl
  initialised := by simp
  numJumps := rfl
  ids := by simp
  sites := by simp
  pending := by simp
  saved := by simp [lastFor]
  escapes := .start

theorem JumpInv.nodup {s : System} (h : JumpInv s sh calls) : (serials s.activations).Nodup := by
  have hids := h.escapes.inv.ids
  rwa [List.map_map] at hids

theorem JumpInv.call {arguments : Locals} {stack : List Val} {m : Memory}
    (h : JumpInv ⟨j, acts⟩ sh calls) (hacts : ∀ a ∈ acts, a.serial ≠ act.serial)
    (hcalls : ∀ k ∈ calls, k.serial ≠ act.serial)
    (hprologue : runLines jvm math act.method.text.prologue none ⟨arguments, [], j.memory⟩ =
      .fall ⟨act.locals, stack, m⟩) :
    JumpInv ⟨{ j with memory := m }, act :: acts⟩
      ⟨[], ⟨j.memory.registers, sh.blocks⟩ :: sh.frames⟩ calls := by
  obtain ⟨v, n, hhandles⟩ := act.method.translated.handlesJumps
  obtain ⟨hexec, hslots⟩ := hhandles.prologue _ _ _ _ _ hprologue
  have hvars : act.comparedVars = comparedSlots v n := hhandles.comparedVars
  have hzero : ∀ i ∈ act.comparedVars, act.locals i = some (.int 0#32) := hvars ▸ hslots
  obtain ⟨rfl, hm, hp⟩ := createStackFrame_ok hexec
  have hgood := h.chain.good
  have hlo := hgood.bottom
  have haligned := hgood.aligned
  simp only [registers] at hlo haligned
  have hsp : (pushed j.memory.stackPointer 4#32).toNat = j.memory.stackPointer.toNat - 8 :=
    toNat_pushed_four haligned (by simp only [stackBottom, memSize, stackSize] at hlo; omega)
  -- at the end of the stack, the slot would be in the absent page
  have hbottom : stackBottom + 8 ≤ j.memory.stackPointer.toNat := by
    rcases hlo.lt_or_eq with hlt | heq
    · simp only [stackBottom, memSize, stackSize] at hlt ⊢
      omega
    · rw [hsp, ← heq] at hm
      exact (h.guard hm).elim
  have hkept : act.frame = ⟨act.serial, fun _ => none⟩ := by
    have hnone : act.kept = fun _ => none := by
      funext i
      unfold Activation.kept
      split_ifs with hi
      · rw [hzero i hi]
        rfl
      · rfl
    rw [Activation.frame, hnone]
  refine ⟨h.chain.framed hm hp hbottom, fun hmapped => h.guard ((mapped_write ..).mp hmapped),
    ?_, ?_, h.numJumps, h.ids, ?_, ?_, ?_, ?_⟩
  · simpa using h.length
  · intro a ha
    rcases List.mem_cons.mp ha with rfl | ha
    · exact fun i hi => ⟨0#32, hzero i hi⟩
    · exact h.initialised a ha
  · intro k hk a ha hserial
    rcases List.mem_cons.mp ha with rfl | ha
    · exact (hcalls k hk hserial.symm).elim
    · exact h.sites k hk a ha hserial
  · intro k hk depth hdepth
    cases depth with
    | zero => exact (hcalls k hk (Option.some.inj hdepth).symm).elim
    | succ depth =>
        obtain ⟨howned, hstack, hfp⟩ := h.pending k hk depth hdepth
        exact ⟨howned, hstack, hfp⟩
  · intro env k hlast hlive
    obtain ⟨hk, rfl⟩ := mem_of_lastFor hlast
    have hlive : k.serial ∈ serials acts :=
      (List.mem_cons.mp hlive).resolve_left (hcalls k hk)
    obtain ⟨depth, hdepth⟩ := List.mem_iff_getElem?.mp hlive
    have howned := (h.pending k hk depth hdepth).owned.mono (sh.live_close_subset depth)
    refine (h.saved k.env k hlast hlive).congr fun x hlo hhi => ?_
    -- the new slot is in the stack, below the stack pointer
    change (j.memory.write _ _).byte x = _
    rw [byte_write hm (by simpa using hp), length_leBytes, hsp, if_neg]
    have hbounds := howned.bounds h.chain
    simp only [Jump.buffer] at hbounds
    omega
  · rw [List.map_cons, hkept]
    refine .enter h.escapes (fun fr hfr => ?_) fun k hk => ?_
    · obtain ⟨a, ha, rfl⟩ := List.mem_map.mp hfr
      exact hacts a ha
    · obtain ⟨k', hk', rfl⟩ := List.mem_map.mp hk
      exact hcalls k' hk'

/-- Frames are closed together with their activations. -/
theorem JumpInv.drop {inner outer : List Activation} (h : JumpInv ⟨j, inner ++ outer⟩ sh calls)
    (hescapes : Escapes.Run (outer.map Activation.frame) (calls.map SetjmpCall.mark)) :
    JumpInv ⟨⟨j.numJumps, j.memory.setRegisters (closedRegisters j.memory.registers sh.frames
      inner.length)⟩, outer⟩ (sh.close inner.length) calls := by
  have hlength : sh.frames.length = inner.length + outer.length :=
    h.length.trans List.length_append
  have hchain := (h.chain.close (k := inner.length) (by omega)).2
  have hserials : ∀ depth, (serials (inner ++ outer))[inner.length + depth]? =
      (serials outer)[depth]? := by
    intro depth
    rw [serials, List.map_append, List.getElem?_append_right (by simp), List.length_map,
      Nat.add_sub_cancel_left]
    rfl
  refine ⟨?_, h.guard, ?_, fun a ha => h.initialised a (List.mem_append_right _ ha), h.numJumps,
    h.ids, fun k hk a ha => h.sites k hk a (List.mem_append_right _ ha), ?_, ?_, hescapes⟩
  · rw [← sh.frames_close] at hchain
    exact hchain.setRegisters _
  · rw [sh.frames_close, List.length_drop, hlength, Nat.add_sub_cancel_left]
  · intro k hk depth hdepth
    obtain ⟨howned, hstack, hfp⟩ := h.pending k hk _ ((hserials depth).trans hdepth)
    rw [← closedRegisters_drop, ← sh.frames_close] at hstack hfp
    rw [← sh.close_close] at howned
    exact ⟨howned, hstack, hfp⟩
  · intro env k hlast hlive
    have hlive : Live (inner ++ outer) k := by
      rw [Live, serials, List.map_append]
      exact List.mem_append_right _ hlive
    exact (h.saved env k hlast hlive).congr fun _ _ _ => rfl

theorem JumpInv.ret {m : Memory} (h : JumpInv ⟨j, act :: acts⟩ sh calls)
    (hexec : Memory.destroyStackFrame j.memory = .ok () m) :
    JumpInv ⟨{ j with memory := m }, acts⟩ (sh.close 1) calls := by
  have happend : JumpInv ⟨j, [act] ++ acts⟩ sh calls := h
  have hdrop := happend.drop h.escapes.leave
  obtain ⟨bs, fs⟩ := sh
  cases fs with
  | nil => cases h.length
  | cons f fs =>
      have hone : closedRegisters j.memory.registers (f :: fs) 1 = f.saved :=
        closedRegisters_zero ..
      rw [h.chain.destroyStackFrame] at hexec
      cases hexec
      rwa [List.length_singleton, hone] at hdrop

theorem JumpInv.assign {locals : Locals} (h : JumpInv ⟨j, act :: acts⟩ sh calls)
    (hlocals : ∀ n ∈ act.comparedVars, locals n = act.locals n) :
    JumpInv ⟨j, { act with locals := locals } :: acts⟩ sh calls := by
  refine ⟨h.chain, h.guard, h.length, ?_, h.numJumps, h.ids, ?_, h.pending, h.saved, ?_⟩
  · intro a ha
    rcases List.mem_cons.mp ha with rfl | ha
    · intro n hn
      obtain ⟨id, hid⟩ := h.initialised act List.mem_cons_self n hn
      exact ⟨id, (hlocals n hn).trans hid⟩
    · exact h.initialised a (List.mem_cons_of_mem act ha)
  · intro k hk a ha
    rcases List.mem_cons.mp ha with rfl | ha
    · exact h.sites k hk act List.mem_cons_self
    · exact h.sites k hk a (List.mem_cons_of_mem act ha)
  · have hframe : ({ act with locals := locals } : Activation).frame = act.frame := by
      simp only [Activation.frame, Activation.kept_congr hlocals]
    rw [List.map_cons, hframe]
    exact h.escapes

theorem JumpInv.store {m : Memory} (h : JumpInv ⟨j, acts⟩ sh calls)
    (hguard : ¬ m.Mapped (stackBottom - 8)) (hregisters : m.registers = j.memory.registers)
    (hframes : ∀ f ∈ sh.frames, ∀ i < 4, m.byte (f.slot.base + i) =
      j.memory.byte (f.slot.base + i))
    (hbuffers : ∀ k ∈ calls, Live acts k → ∀ x, k.env.toNat ≤ x → x < k.env.toNat + 8 →
      m.byte x = j.memory.byte x) : JumpInv ⟨{ j with memory := m }, acts⟩ sh calls := by
  refine ⟨?_, hguard, h.length, h.initialised, h.numJumps, h.ids, h.sites, ?_, ?_, h.escapes⟩
  · rw [hregisters]
    exact h.chain.congr hframes
  · intro k hk depth hdepth
    obtain ⟨howned, hstack, hfp⟩ := h.pending k hk depth hdepth
    exact ⟨howned, hregisters ▸ hstack, hregisters ▸ hfp⟩
  · intro env k hlast hlive
    obtain ⟨hk, rfl⟩ := mem_of_lastFor hlast
    exact (h.saved k.env k hlast hlive).congr (hbuffers k hk hlive)

theorem JumpInv.allocateStack {m : Memory} {n p : BitVec 32} (h : JumpInv ⟨j, acts⟩ sh calls)
    (hn : 0 ≤ n.toInt) (hexec : Memory.allocateStack n j.memory = .ok p m)
    (hroom : (stackBottom : ℤ) ≤ m.stackPointer.toInt) :
    JumpInv ⟨{ j with memory := m }, acts⟩ ⟨⟨p.toNat, n.toNat⟩ :: sh.blocks, sh.frames⟩ calls := by
  rw [allocateStack_eq] at hexec
  cases hexec
  obtain ⟨hend, haligned, hbottom⟩ := pushed_bounds h.chain.good.top hn hroom
  refine ⟨(h.chain.push_block hend haligned hbottom).congr fun _ _ _ _ => rfl, h.guard, h.length,
    h.initialised, h.numJumps, h.ids, h.sites, ?_, ?_, h.escapes⟩
  · intro k hk depth hdepth
    obtain ⟨howned, hstack, hfp⟩ := h.pending k hk depth hdepth
    have hsame := closedRegisters_congr { j.memory.registers with
      stackPointer := pushed j.memory.stackPointer n } j.memory.registers rfl rfl sh.frames depth
    exact ⟨howned.mono (sh.live_close_push _ depth), hsame.1.trans hstack, hsame.2.trans hfp⟩
  · intro env k hlast hlive
    exact (h.saved env k hlast hlive).congr fun _ _ _ => rfl

theorem JumpInv.setjmp {operands : Code} {n : ℕ} {env id : BitVec 32} {locals : Locals}
    {stack : List Val} (h : JumpInv ⟨j, act :: acts⟩ sh calls) (hcount : calls.length + 1 < 2 ^ 31)
    (hsite : act.method.text.CallsSetjmp operands n) (hexec : Jump.setjmp env j = .ok id j')
    (hstore : run jvm (storeJump n) none ⟨act.locals, [.int id], j'.memory⟩ =
      .fall ⟨locals, stack, j'.memory⟩) (howned : Owned sh (Jump.buffer env))
    (hdisjoint : ∀ k ∈ calls, Live (act :: acts) k →
      k.env = env ∨ (Jump.buffer k.env).Disjoint (Jump.buffer env)) :
    JumpInv ⟨j', { act with locals := locals } :: acts⟩ sh
      (⟨act.serial, n, env, id, j.memory.registers⟩ :: calls) := by
  obtain ⟨hid, hnum, hregisters, hsaved, hmapped, hbytes⟩ := Jump.setjmp_ok hexec
  cases hstore
  have hnodup := h.nodup
  obtain ⟨hnew, -⟩ := List.nodup_cons.mp hnodup
  have hn : n ∈ act.comparedVars := act.mem_comparedVars hsite
  have hinit : act.Initialised := h.initialised act List.mem_cons_self
  have hid : id = BitVec.ofNat 32 (calls.length + 1) := by
    rw [hid, h.numJumps, BitVec.ofNat_add]
  have htoNat : id.toNat = calls.length + 1 := by
    rw [hid, BitVec.toNat_ofNat, Nat.mod_eq_of_lt (by omega)]
  have hne : id ≠ 0#32 := by
    rintro rfl
    simp at htoNat
  refine ⟨?_, fun hm => h.guard ((hmapped _).mp hm), h.length, ?_, hnum.trans hid, ?_, ?_, ?_, ?_,
    ?_⟩
  · rw [hregisters]
    refine h.chain.congr fun f hf i hi => hbytes _ ?_
    have hslot := howned.slot_disjoint h.chain hf
    simp only [Jump.buffer] at hslot
    omega
  · intro a ha
    rcases List.mem_cons.mp ha with rfl | ha
    · intro i hi
      by_cases heq : i = n
      · subst heq
        exact ⟨id, Locals.set_self ..⟩
      · obtain ⟨x, hx⟩ := hinit i hi
        exact ⟨x, (Activation.set_comparedVars hinit heq hi).trans hx⟩
    · exact h.initialised a (List.mem_cons_of_mem act ha)
  · intro k hk
    rcases List.mem_cons.mp hk with rfl | hk
    · exact ⟨htoNat ▸ Nat.succ_pos _, htoNat.le⟩
    · exact ⟨(h.ids k hk).1, (h.ids k hk).2.trans (Nat.le_succ _)⟩
  · intro k hk a ha hserial
    rcases List.mem_cons.mp hk with rfl | hk
    · rcases List.mem_cons.mp ha with rfl | ha
      · exact ⟨operands, hsite⟩
      · exact (hnew (List.mem_map.mpr ⟨a, ha, hserial⟩)).elim
    · rcases List.mem_cons.mp ha with rfl | ha
      · exact h.sites k hk act List.mem_cons_self hserial
      · exact h.sites k hk a (List.mem_cons_of_mem act ha) hserial
  · intro k hk depth hdepth
    rcases List.mem_cons.mp hk with rfl | hk
    · cases depth with
      | zero =>
          refine ⟨howned, ?_, ?_⟩
          · rw [hregisters, closedRegisters_zero]
          · rw [hregisters, closedRegisters_zero]
      | succ depth => exact (hnew (List.mem_of_getElem? hdepth)).elim
    · obtain ⟨hown, hstack, hfp⟩ := h.pending k hk depth hdepth
      exact ⟨hown, hregisters ▸ hstack, hregisters ▸ hfp⟩
  · intro env' k hlast hlive
    rw [lastFor, List.find?_cons] at hlast
    split at hlast
    · next heq =>
        cases hlast
        have henv : env = env' := by simpa using heq
        exact henv ▸ hsaved
    · next heq =>
        have henv : env ≠ env' := by simpa using heq
        obtain ⟨hk, rfl⟩ := mem_of_lastFor hlast
        refine (h.saved k.env k hlast hlive).congr fun x hlo hhi => hbytes x ?_
        have hapart := (hdisjoint k hk hlive).resolve_left henv.symm
        simp only [Jump.buffer, Block.Disjoint] at hapart
        omega
  · have hfresh : ∀ k ∈ calls.map SetjmpCall.mark, k.token ≠ id := by
      intro k hk heq
      obtain ⟨k', hk', rfl⟩ := List.mem_map.mp hk
      have hle := (h.ids k' hk').2
      rw [← heq] at htoNat
      change k'.id.toNat = _ at htoNat
      omega
    have hframe := Activation.frame_set hinit hn hne
    rw [List.map_cons, hframe]
    exact h.escapes.mark hfresh

/-- `longjmp` closes the frames of the inner activations. -/
theorem JumpInv.longjmp_eq {s : System} {k : SetjmpCall} {depth : ℕ} (h : JumpInv s sh calls)
    (hlast : lastFor calls k.env = some k)
    (hdepth : (serials s.activations)[depth]? = some k.serial) (val : BitVec 32) :
    Jump.longjmp k.env val s.jumps = .error (Jump.newJump k.id val) ⟨s.jumps.numJumps,
      s.jumps.memory.setRegisters
        (closedRegisters s.jumps.memory.registers sh.frames depth)⟩ := by
  have hk := (mem_of_lastFor hlast).1
  obtain ⟨hlt, -⟩ := List.getElem?_eq_some_iff.mp hdepth
  rw [serials, List.length_map, ← h.length] at hlt
  exact Jump.longjmp_eq h.chain hlt.le
    (h.saved k.env k hlast (List.mem_of_getElem? hdepth)) (h.pending k hk depth hdepth).stackDepth
    val

theorem JumpInv.id_ne_zero {s : System} {k : SetjmpCall} (h : JumpInv s sh calls) (hk : k ∈ calls) :
    k.id ≠ 0#32 := by
  intro hzero
  have hpos := (h.ids k hk).1
  rw [hzero] at hpos
  simp at hpos

/-- A jump with the number of a call comes to its activation. -/
theorem JumpInv.unwind_eq {s : System} {k : SetjmpCall} {value : BitVec 32} {m : Memory}
    {l : Landing} (h : JumpInv s sh calls) (hk : k ∈ calls)
    (hunwind : unwind jvm math k.id value m s.activations = some l) :
    ∃ inner act locals outer, s.activations = inner ++ act :: outer ∧ act.serial = k.serial ∧
      Escapes.Lands (s.activations.map Activation.frame) k.id act.frame k.site
        (outer.map Activation.frame) ∧
      (∀ n ∈ act.comparedVars, locals n = act.locals n) ∧
      l = ⟨.setjmp k.site, [.int value], m, { act with locals := locals }, outer⟩ := by
  obtain ⟨inner, act, n, locals, outer, hacts, hlands, hsame, rfl⟩ :=
    unwind_lands (h.id_ne_zero hk) h.initialised hunwind
  obtain ⟨hserial, rfl⟩ := h.escapes.inv.lands (List.mem_map_of_mem hk) hlands
  exact ⟨inner, act, locals, outer, hacts, hserial, hlands, hsame, rfl⟩

theorem JumpInv.longjmp {k : SetjmpCall} {val id value : BitVec 32} {l : Landing}
    (h : JumpInv ⟨j, acts⟩ sh calls) (hlast : lastFor calls k.env = some k) (hlive : Live acts k)
    (hexec : Jump.longjmp k.env val j = .error (.jump id value) j')
    (hunwind : unwind jvm math id value j'.memory acts = some l) :
    JumpInv ⟨{ j' with memory := l.memory }, l.act :: l.outer⟩
      (sh.close (acts.length - (l.outer.length + 1))) calls := by
  have hk := (mem_of_lastFor hlast).1
  obtain ⟨depth, hdepth⟩ := List.mem_iff_getElem?.mp hlive
  rw [h.longjmp_eq hlast hdepth val] at hexec
  cases hexec
  obtain ⟨inner, act, locals, outer, rfl, hserial, hlands, hsame, rfl⟩ := h.unwind_eq hk hunwind
  have hinner : depth = inner.length := by
    have hat : (serials (inner ++ act :: outer))[inner.length]? = some k.serial := by
      simp [serials, hserial]
    exact (List.getElem?_inj (List.getElem?_eq_some_iff.mp hdepth).1 h.nodup).mp
      (hdepth.trans hat.symm)
  have hclosed : (inner ++ act :: outer).length - (outer.length + 1) = inner.length := by
    simp
  rw [hclosed, hinner]
  exact (h.drop (h.escapes.escape hlands)).assign hsame

theorem JumpRun.inv {s : System} (h : JumpRun jvm math s sh calls)
    (hcount : calls.length < 2 ^ 31) : JumpInv s sh calls := by
  induction h with
  | start => exact .start
  | call h hacts hcalls hprologue ih => exact (ih hcount).call hacts hcalls hprologue
  | ret h hexec ih => exact (ih hcount).ret hexec
  | setjmp h hsite hoperands hexec hstore howned hdisjoint ih =>
      have hcount : _ + 1 < 2 ^ 31 := hcount
      exact (ih (Nat.lt_of_succ_lt hcount)).setjmp hcount hsite hexec hstore howned hdisjoint
  | longjmp h hlast hlive hexec hunwind ih =>
      exact (ih hcount).longjmp hlast hlive hexec hunwind
  | allocateStack h hn hexec hroom ih => exact (ih hcount).allocateStack hn hexec hroom
  | store h hguard hregisters hframes hbuffers ih =>
      exact (ih hcount).store hguard hregisters hframes hbuffers
  | assign h hlocals ih => exact (ih hcount).assign hlocals

/-! ## Jumps -/

theorem JumpInv.latest_iff {s : System} {k : SetjmpCall} (h : JumpInv s sh calls) (hk : k ∈ calls) :
    Escapes.latest (calls.map SetjmpCall.mark) k.serial k.site = some k.id ↔
      lastAt calls k.serial k.site = some k := by
  have hlatest : Escapes.latest (calls.map SetjmpCall.mark) k.serial k.site =
      (lastAt calls k.serial k.site).map SetjmpCall.id := by
    rw [Escapes.latest, List.find?_map, Option.map_map]
    rfl
  have hids : (calls.map SetjmpCall.id).Nodup := by
    have htokens := h.escapes.inv.tokens
    rwa [List.map_map] at htokens
  rw [hlatest, Option.map_eq_some_iff]
  constructor
  · rintro ⟨k', hk', hid⟩
    obtain rfl := List.inj_on_of_nodup_map hids (List.mem_of_find?_eq_some hk') hk hid
    exact hk'
  · exact fun hlast => ⟨k, hlast, rfl⟩

theorem JumpInv.lands_iff {s : System} {k : SetjmpCall} {inner outer : List Activation}
    (h : JumpInv s sh calls) (hk : k ∈ calls) (hacts : s.activations = inner ++ act :: outer)
    (hserial : act.serial = k.serial) :
    Escapes.Lands (s.activations.map Activation.frame) k.id act.frame k.site
      (outer.map Activation.frame) ↔ lastAt calls k.serial k.site = some k := by
  have hframes : s.activations.map Activation.frame =
      inner.map Activation.frame ++ act.frame :: outer.map Activation.frame := by
    rw [hacts, List.map_append, List.map_cons]
  rw [← h.latest_iff hk]
  exact h.escapes.lands_iff (List.mem_map_of_mem hk) hframes hserial

theorem JumpInv.lastAt_of_returns {s : System} {k : SetjmpCall} {val : BitVec 32}
    (h : JumpInv s sh calls) (hlast : lastFor calls k.env = some k) (hlive : Live s.activations k)
    (hreturns : ReturnsTo jvm math s val k) : lastAt calls k.serial k.site = some k := by
  obtain ⟨hk, -⟩ := mem_of_lastFor hlast
  obtain ⟨depth, hdepth⟩ := List.mem_iff_getElem?.mp hlive
  obtain ⟨id, value, j, _, _, _, _, hexec, -, -, hunwind, -⟩ := hreturns
  rw [h.longjmp_eq hlast hdepth val] at hexec
  cases hexec
  obtain ⟨inner, act, locals, outer, hacts, hserial, hlands, -, -⟩ := h.unwind_eq hk hunwind
  exact (h.lands_iff hk hacts hserial).mp hlands

theorem JumpInv.returns_of_lastAt {s : System} {k : SetjmpCall} (h : JumpInv s sh calls)
    (hlast : lastFor calls k.env = some k) (hlive : Live s.activations k)
    (hat : lastAt calls k.serial k.site = some k) (val : BitVec 32) :
    ReturnsTo jvm math s val k := by
  obtain ⟨hk, -⟩ := mem_of_lastFor hlast
  obtain ⟨depth, hdepth⟩ := List.mem_iff_getElem?.mp hlive
  obtain ⟨act, hact, hserial⟩ := List.mem_map.mp hlive
  obtain ⟨inner, outer, hacts⟩ := List.append_of_mem hact
  obtain ⟨-, -, -, hkept⟩ := (h.lands_iff hk hacts hserial).mpr hat
  -- the number has been kept, so that the jump comes to the activation of the call
  obtain ⟨l, hunwind⟩ := exists_unwind jvm math (if val = 0#32 then 1#32 else val)
    (s.jumps.memory.setRegisters (closedRegisters s.jumps.memory.registers sh.frames depth))
    (h.id_ne_zero hk) h.initialised hact hkept
  obtain ⟨inner, act, locals, outer, hacts, hserial, -, -, hl⟩ := h.unwind_eq hk hunwind
  rw [hl] at hunwind
  obtain ⟨operands, hsite⟩ := h.sites k hk act (by simp [hacts]) hserial
  obtain ⟨-, hstack, hfp⟩ := h.pending k hk depth hdepth
  exact ⟨k.id, _, _, inner, act, outer, locals, h.longjmp_eq hlast hdepth val, hacts, hserial,
    hunwind, act.method.translated.count_setjmp hsite, hstack, hfp⟩

/-- `longjmp` returns from the last call of `setjmp` for the buffer exactly if the activation has
not made another call at the same place since. -/
theorem longjmp_returns_iff {s : System} {env : BitVec 32} {k : SetjmpCall}
    (h : JumpRun jvm math s sh calls) (hcount : calls.length < 2 ^ 31)
    (hlast : lastFor calls env = some k) (hlive : Live s.activations k) (val : BitVec 32) :
    ReturnsTo jvm math s val k ↔ lastAt calls k.serial k.site = some k := by
  have hinv := h.inv hcount
  obtain ⟨-, rfl⟩ := mem_of_lastFor hlast
  exact ⟨hinv.lastAt_of_returns hlast hlive, fun hat => hinv.returns_of_lastAt hlast hlive hat val⟩

/-! ## A run that comes to a call again -/

theorem run_storeJump (jvm : Env) (n : ℕ) (id : BitVec 32) (locals : Locals) (m : Memory) :
    run jvm (storeJump n) none ⟨locals, [.int id], m⟩ =
      .fall ⟨locals.set n (.int id), [.int 0#32], m⟩ := rfl

/-- The function calls `setjmp(e)`, with some address in `e`. -/
theorem JumpRun.retry {j : Jump.Jumps} {locals : Locals} {sh : Shadow} {calls : List SetjmpCall}
    (h : JumpRun jvm math ⟨j, [⟨0, retryMethod, locals⟩]⟩ sh calls) (env : BitVec 32)
    (hm : j.memory.Mapped env.toNat)
    (hm' : j.memory.Mapped (env + 4#32).toNat) (hp : InPage env.toNat 4)
    (hp' : InPage (env + 4#32).toNat 4) (howned : Owned sh (Jump.buffer env))
    (hdisjoint : ∀ k ∈ calls, (Jump.buffer k.env).Disjoint (Jump.buffer env)) :
    ∃ j' locals' id, JumpRun jvm math ⟨j', [⟨0, retryMethod, locals'⟩]⟩ sh
        (⟨0, 5, env, id, j.memory.registers⟩ :: calls) ∧
      ∀ a, j.memory.Mapped a → j'.memory.Mapped a := by
  have hassigned : ∀ n ∈ Activation.comparedVars ⟨0, retryMethod, locals⟩,
      locals.set 2 (.int env) n = locals n := by
    intro n hn
    change n ∈ retryText.comparedVars at hn
    rw [comparedVars_retry, List.mem_singleton] at hn
    subst hn
    exact Locals.set_of_ne _ _ _ (by decide) (by simp) (by simp)
  have hoperands : run jvm [.load .i .short 2] none ⟨locals.set 2 (.int env), [], j.memory⟩ =
      .fall ⟨locals.set 2 (.int env), [.int env], j.memory⟩ := by
    simp [run, step, Val.letter]
  have hexec := Jump.setjmp_eq (s := j) hm hp hm' hp'
  have hstore := run_storeJump jvm 5 (j.numJumps + 1#32) (locals.set 2 (.int env))
  have hmapped : ∀ a, j.memory.Mapped a → ((j.memory.write env.toNat
      (leBytes 4 (j.numJumps + 1#32))).write (env + 4#32).toNat
        (leBytes 4 j.memory.stackDepth)).Mapped a := fun a ha =>
    (mapped_write ..).mpr ((mapped_write ..).mpr ha)
  exact ⟨_, _, _, (h.assign hassigned).setjmp callsSetjmp_retry hoperands hexec (hstore _) howned
    fun k hk _ => .inr (hdisjoint k hk), hmapped⟩

/-- The memory with two static buffers. -/
def twoBuffers : Memory := { Memory.initial with dataEnd := 24#32 }

theorem createStackFrame_twoBuffers : createStackFrame twoBuffers = .ok () twoBuffers.framed :=
  createStackFrame_framed (by decide) (by unfold InPage; decide)

theorem mapped_twoBuffers {a : ℕ} (h : a < 24) : twoBuffers.framed.Mapped a := by
  have hinitial : ∀ a < 24, twoBuffers.Mapped a := by decide
  exact (mapped_write ..).mpr (hinitial a h)

theorem exists_retry_called (jvm : Env) (math : MathFunction → List (BitVec 64) → BitVec 64) :
    ∃ locals, JumpRun jvm math ⟨⟨0#32, twoBuffers.framed⟩, [⟨0, retryMethod, locals⟩]⟩
      ⟨[], [⟨twoBuffers.registers, []⟩]⟩ [] := by
  have hstart : JumpRun jvm math ⟨⟨0#32, twoBuffers⟩, []⟩ ⟨[], []⟩ [] :=
    .store .start (by decide) rfl (by simp) (by simp)
  let arguments : Locals := fun n => [some (Val.int 8#32), some (.int 16#32)].getD n none
  obtain ⟨locals, hinit⟩ : ∃ locals, run jvm (storeConstants [(.i, .plain, 2), (.i, .plain, 3),
      (.i, .plain, 4), (.i, .plain, 5)]) none ⟨arguments, [], twoBuffers⟩ =
      .fall ⟨locals, [], twoBuffers⟩ := ⟨_, rfl⟩
  have hprologue : runLines jvm math retryText.prologue none ⟨arguments, [], twoBuffers⟩ =
      .fall ⟨locals, [], twoBuffers.framed⟩ := by
    rw [prologue_retry, runLines_lines, run_append_of_fall hinit, run_createStackFrame,
      createStackFrame_twoBuffers]
  exact ⟨locals, hstart.call (by simp) (by simp) hprologue⟩

/-- The function calls `setjmp` at the same place for one buffer and then for the other one. -/
theorem exists_retry (jvm : Env) (math : MathFunction → List (BitVec 64) → BitVec 64) :
    ∃ j locals sh id id' r r', JumpRun jvm math ⟨j, [⟨0, retryMethod, locals⟩]⟩ sh
      [⟨0, 5, 16#32, id', r'⟩, ⟨0, 5, 8#32, id, r⟩] := by
  obtain ⟨locals, hcall⟩ := exists_retry_called jvm math
  have hm : ∀ {j' : Jump.Jumps}, (∀ a, twoBuffers.framed.Mapped a → j'.memory.Mapped a) →
      ∀ a < 24, j'.memory.Mapped a := fun h a ha => h a (mapped_twoBuffers ha)
  obtain ⟨j, locals', id, hfirst, hj⟩ := hcall.retry 8#32 (mapped_twoBuffers (by decide))
    (mapped_twoBuffers (by decide)) (by unfold InPage; decide) (by unfold InPage; decide)
    (.inl (by decide)) (by simp)
  obtain ⟨j', locals'', id', hsecond, -⟩ := hfirst.retry 16#32 (hm hj _ (by decide))
    (hm hj _ (by decide)) (by unfold InPage; decide) (by unfold InPage; decide) (.inl (by decide))
    (by simp [Jump.buffer, Block.Disjoint])
  exact ⟨j', locals'', _, id, id', _, _, hsecond⟩

/-- The last call for the second buffer is the last one at its place. -/
theorem longjmp_returns_retry : ∃ s sh calls k,
    JumpRun Env.plain (fun _ _ => 0#64) s sh calls ∧ calls.length < 2 ^ 31 ∧
      lastFor calls 16#32 = some k ∧ Live s.activations k ∧
      ReturnsTo Env.plain (fun _ _ => 0#64) s 0#32 k := by
  obtain ⟨j, locals, sh, id, id', r, r', h⟩ := exists_retry Env.plain fun _ _ => 0#64
  have hcount : 2 < 2 ^ 31 := by decide
  have hlive : Live [⟨0, retryMethod, locals⟩] ⟨0, 5, 16#32, id', r'⟩ := by simp [Live, serials]
  have hlast : lastFor [⟨0, 5, 16#32, id', r'⟩, ⟨0, 5, 8#32, id, r⟩] 16#32 =
      some ⟨0, 5, 16#32, id', r'⟩ := rfl
  exact ⟨_, _, _, _, h, hcount, hlast, hlive,
    (longjmp_returns_iff h hcount hlast hlive 0#32).mpr rfl⟩

/-- The call for the first buffer is forgotten, as the other one is at the same place. -/
theorem longjmp_does_not_return : ∃ s sh calls k,
    JumpRun Env.plain (fun _ _ => 0#64) s sh calls ∧ calls.length < 2 ^ 31 ∧
      lastFor calls 8#32 = some k ∧ Live s.activations k ∧
      ¬ ReturnsTo Env.plain (fun _ _ => 0#64) s 1#32 k := by
  obtain ⟨j, locals, sh, id, id', r, r', h⟩ := exists_retry Env.plain fun _ _ => 0#64
  have hcount : 2 < 2 ^ 31 := by decide
  have hlive : Live [⟨0, retryMethod, locals⟩] ⟨0, 5, 8#32, id, r⟩ := by simp [Live, serials]
  refine ⟨_, _, _, _, h, hcount, rfl, hlive, fun hreturns => ?_⟩
  have hat := (h.inv hcount).lastAt_of_returns rfl hlive hreturns
  simp [lastAt] at hat

end steps

end Llxvm.Backend
