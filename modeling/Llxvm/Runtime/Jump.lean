import Llxvm.Runtime.StackFrames

/-!
# `setjmp` and `longjmp`

`llxvm.runtime.Jump`: `setjmp` numbers its calls and writes the number and the depth of the stack to
the buffer; `longjmp` closes the frames above this depth and throws a `Jump` with the number.
-/

namespace Llxvm.Runtime

open Align LittleEndian

/-! ## Closed frames -/

section close

/-- The registers when the innermost `k` frames are closed. -/
def closedRegisters : Registers → List OpenFrame → ℕ → Registers
  | r, [], _ => r
  | r, _ :: _, 0 => r
  | _, f :: fs, k + 1 => closedRegisters f.saved fs k

/-- The history when the innermost `k` frames are closed. -/
def Shadow.close : Shadow → ℕ → Shadow
  | sh, 0 => sh
  | ⟨bs, []⟩, _ + 1 => ⟨bs, []⟩
  | ⟨_, f :: fs⟩, k + 1 => Shadow.close ⟨f.outer, fs⟩ k

@[simp] theorem closedRegisters_zero (r : Registers) (fs : List OpenFrame) :
    closedRegisters r fs 0 = r := by
  cases fs <;> rfl

@[simp] theorem Shadow.close_zero (sh : Shadow) : sh.close 0 = sh := rfl

theorem Shadow.frames_close (sh : Shadow) (k : ℕ) : (sh.close k).frames = sh.frames.drop k := by
  obtain ⟨bs, fs⟩ := sh
  induction k generalizing bs fs with
  | zero => rfl
  | succ k ih =>
      cases fs with
      | nil => rfl
      | cons f fs => exact ih f.outer fs

theorem Shadow.close_close (sh : Shadow) (j k : ℕ) : (sh.close j).close k = sh.close (j + k) := by
  obtain ⟨bs, fs⟩ := sh
  induction j generalizing bs fs with
  | zero => rw [Nat.zero_add, Shadow.close_zero]
  | succ j ih =>
      rw [Nat.succ_add]
      cases fs with
      | nil => cases k <;> rfl
      | cons f fs => exact ih f.outer fs

theorem closedRegisters_drop (r : Registers) (fs : List OpenFrame) (j k : ℕ) :
    closedRegisters (closedRegisters r fs j) (fs.drop j) k = closedRegisters r fs (j + k) := by
  induction j generalizing r fs with
  | zero => simp
  | succ j ih =>
      rw [Nat.succ_add]
      cases fs with
      | nil => rfl
      | cons f fs => exact ih f.saved fs

/-- The depth and the frame pointer do not change while a frame is open. -/
theorem closedRegisters_congr (r r' : Registers) (hdepth : r.stackDepth = r'.stackDepth)
    (hfp : r.framePointer = r'.framePointer) (fs : List OpenFrame) (k : ℕ) :
    (closedRegisters r fs k).stackDepth = (closedRegisters r' fs k).stackDepth ∧
      (closedRegisters r fs k).framePointer = (closedRegisters r' fs k).framePointer := by
  cases fs with
  | nil => exact ⟨hdepth, hfp⟩
  | cons f fs =>
      cases k with
      | zero => exact ⟨hdepth, hfp⟩
      | succ k => exact ⟨rfl, rfl⟩

/-- What is live when frames are closed was live before. -/
theorem Shadow.live_close_subset (sh : Shadow) (k : ℕ) : (sh.close k).live ⊆ sh.live := by
  obtain ⟨bs, fs⟩ := sh
  induction k generalizing bs fs with
  | zero => exact fun b hb => hb
  | succ k ih =>
      cases fs with
      | nil => exact fun b hb => hb
      | cons f fs => exact fun b hb => List.mem_append_right bs (ih f.outer fs hb)

theorem Shadow.live_close_push (sh : Shadow) (b : Block) (k : ℕ) :
    (sh.close k).live ⊆ (Shadow.close ⟨b :: sh.blocks, sh.frames⟩ k).live := by
  obtain ⟨bs, fs⟩ := sh
  cases k with
  | zero => exact List.subset_cons_self b _
  | succ k =>
      cases fs with
      | nil => exact List.subset_cons_self b _
      | cons f fs => exact fun c hc => hc

end close

namespace Memory

/-- Closing frames one after the other. -/
theorem FrameChain.close {m : Memory} {bs : List Block} {fs : List OpenFrame}
    (h : FrameChain m m.registers bs fs) {k : ℕ} (hk : k ≤ fs.length) :
    Memory.destroyStackFramesLoop k m =
        .ok () (m.setRegisters (closedRegisters m.registers fs k)) ∧
      FrameChain m (closedRegisters m.registers fs k) (Shadow.close ⟨bs, fs⟩ k).blocks
        (fs.drop k) := by
  induction k generalizing m bs fs with
  | zero =>
      rw [closedRegisters_zero]
      exact ⟨rfl, h⟩
  | succ k ih =>
      cases fs with
      | nil => simp at hk
      | cons f fs =>
          have htail : FrameChain (m.setRegisters f.saved) (m.setRegisters f.saved).registers
              f.outer fs := h.2.2.2.2.2.2.setRegisters _
          obtain ⟨hrun, hrest⟩ := ih htail (by simpa using hk)
          rw [registers_setRegisters] at hrun hrest
          rw [Memory.destroyStackFramesLoop]
          simp only [bind, EStateM.bind, h.destroyStackFrame]
          exact ⟨hrun, hrest.congr fun _ _ _ _ => rfl⟩

end Memory

namespace Jump

/-! ## The methods -/

/-- The static field of `Jump`, and the memory. -/
structure Jumps where
  numJumps : BitVec 32
  memory : Memory

abbrev JumpM := EStateM Throwable Jumps

def onMemory {α : Type} (x : MemM α) : JumpM α := fun s =>
  match x s.memory with
  | .ok a m => .ok a { s with memory := m }
  | .error e m => .error e { s with memory := m }

/-- The constructor of `Jump`. -/
def newJump (id value : BitVec 32) : Throwable := .jump id (if value = 0#32 then 1#32 else value)

def setjmp (env : BitVec 32) : JumpM (BitVec 32) := do
  modify fun s => { s with numJumps := s.numJumps + 1#32 }
  let id := (← get).numJumps
  let stackDepth ← onMemory Memory.getStackDepth
  onMemory (Memory.storeInt env id)
  onMemory (Memory.storeInt (env + 4#32) stackDepth)
  return id

def longjmp (env val : BitVec 32) : JumpM Unit := do
  let id ← onMemory (Memory.loadI32 env)
  let stackDepth ← onMemory (Memory.loadI32 (env + 4#32))
  onMemory (Memory.destroyStackFrames ((← onMemory Memory.getStackDepth) - stackDepth))
  throw (newJump id val)

/-! ## The buffer -/

/-- The buffer at `env` has what `setjmp` writes to it. -/
structure Saved (m : Memory) (env id stackDepth : BitVec 32) : Prop where
  holdsId : m.Holds env.toNat (leBytes 4 id)
  holdsDepth : m.Holds (env + 4#32).toNat (leBytes 4 stackDepth)
  idInPage : Memory.InPage env.toNat 4
  depthInPage : Memory.InPage (env + 4#32).toNat 4

/-- The bytes of a buffer. -/
def buffer (env : BitVec 32) : Block := ⟨env.toNat, 8⟩

section buffer

variable {m m' : Memory} {env id stackDepth : BitVec 32}

theorem toNat_add_four (h : m.Mapped env.toNat) : (env + 4#32).toNat = env.toNat + 4 := by
  have hlt := h.lt_memSize
  rw [BitVec.toNat_add]
  simp only [memSize, BitVec.toNat_ofNat] at hlt ⊢
  omega

theorem Saved.mapped (h : Saved m env id stackDepth) : m.Mapped env.toNat :=
  h.holdsId.mapped (i := 0) (by simp)

theorem Saved.congr (h : Saved m env id stackDepth)
    (hbytes : ∀ x, env.toNat ≤ x → x < env.toNat + 8 → m'.byte x = m.byte x) :
    Saved m' env id stackDepth := by
  have hfour := toNat_add_four h.mapped
  refine ⟨fun i hi => ?_, fun i hi => ?_, h.idInPage, h.depthInPage⟩
  · have hlen : i < 4 := by simpa using hi
    rw [hbytes _ (by omega) (by omega)]
    exact h.holdsId i hi
  · have hlen : i < 4 := by simpa using hi
    rw [hbytes _ (by omega) (by omega)]
    exact h.holdsDepth i hi

end buffer

/-! ## What the methods do -/

section methods

variable {s s' : Jumps} {env id stackDepth : BitVec 32}

theorem onMemory_storeInt_ok {addr : BitVec 32} (value : BitVec 32)
    (hm : s.memory.Mapped addr.toNat) (hp : Memory.InPage addr.toNat 4) :
    onMemory (Memory.storeInt addr value) s =
      .ok () { s with memory := s.memory.write addr.toNat (leBytes 4 value) } := by
  have hlen : Memory.InPage addr.toNat (leBytes 4 value).length := by rwa [length_leBytes]
  simp only [onMemory, Memory.storeInt, Memory.storeBytes_ok hm hlen]

theorem onMemory_storeInt (addr value : BitVec 32) :
    (s.memory.Mapped addr.toNat ∧ Memory.InPage addr.toNat 4 ∧
        onMemory (Memory.storeInt addr value) s =
          .ok () { s with memory := s.memory.write addr.toNat (leBytes 4 value) }) ∨
      ∃ e s', onMemory (Memory.storeInt addr value) s = .error e s' := by
  rcases Memory.storeBytes_cases s.memory addr (leBytes 4 value) with ⟨hm, hp, -⟩ | ⟨e, herr⟩
  · have hp : Memory.InPage addr.toNat 4 := by rwa [length_leBytes] at hp
    exact .inl ⟨hm, hp, onMemory_storeInt_ok value hm hp⟩
  · refine .inr ⟨e, s, ?_⟩
    simp only [onMemory, Memory.storeInt, herr]

theorem setjmp_def : setjmp env s = (do
    onMemory (Memory.storeInt env (s.numJumps + 1#32))
    onMemory (Memory.storeInt (env + 4#32) s.memory.stackDepth)
    return s.numJumps + 1#32 : JumpM (BitVec 32)) { s with numJumps := s.numJumps + 1#32 } := rfl

theorem setjmp_ok (h : setjmp env s = .ok id s') :
    id = s.numJumps + 1#32 ∧ s'.numJumps = id ∧ s'.memory.registers = s.memory.registers ∧
      Saved s'.memory env id s.memory.stackDepth ∧
      (∀ x, s'.memory.Mapped x ↔ s.memory.Mapped x) ∧
      ∀ x, x < env.toNat ∨ env.toNat + 8 ≤ x → s'.memory.byte x = s.memory.byte x := by
  rw [setjmp_def] at h
  simp only [bind, EStateM.bind] at h
  rcases onMemory_storeInt (s := { s with numJumps := s.numJumps + 1#32 }) env
    (s.numJumps + 1#32) with ⟨hm, hp, hok⟩ | ⟨e, s₁, herr⟩
  · rw [hok] at h
    simp only at h
    rcases onMemory_storeInt (s := ⟨s.numJumps + 1#32, s.memory.write env.toNat
      (leBytes 4 (s.numJumps + 1#32))⟩) (env + 4#32) s.memory.stackDepth with
      ⟨hm', hp', hok'⟩ | ⟨e, s₁, herr⟩
    · rw [hok'] at h
      cases h
      have hfour := toNat_add_four hm
      have hlen : ∀ v : BitVec 32, (leBytes 4 v).length = 4 := fun v => length_leBytes 4 v
      have hp₁ : Memory.InPage env.toNat (leBytes 4 (s.numJumps + 1#32)).length := by rwa [hlen]
      have hp₂ : Memory.InPage (env + 4#32).toNat (leBytes 4 s.memory.stackDepth).length := by
        rwa [hlen]
      refine ⟨rfl, rfl, rfl, ⟨?_, Memory.holds_write hm' hp₂, hp, hp'⟩, fun x => ?_, fun x hx => ?_⟩
      · refine Memory.Holds.write_of_disjoint hm' hp₂ (.inl ?_) (Memory.holds_write hm hp₁)
        rw [hlen, hfour]
      · exact (Memory.mapped_write ..).trans (Memory.mapped_write ..)
      · change ((s.memory.write _ _).write _ _).byte x = _
        rw [Memory.byte_write hm' hp₂, if_neg (by rw [hlen, hfour]; omega),
          Memory.byte_write hm hp₁, if_neg (by rw [hlen]; omega)]
    · rw [herr] at h
      cases h
  · rw [herr] at h
    cases h

theorem setjmp_eq (hm : s.memory.Mapped env.toNat) (hp : Memory.InPage env.toNat 4)
    (hm' : s.memory.Mapped (env + 4#32).toNat) (hp' : Memory.InPage (env + 4#32).toNat 4) :
    setjmp env s = .ok (s.numJumps + 1#32) ⟨s.numJumps + 1#32,
      (s.memory.write env.toNat (leBytes 4 (s.numJumps + 1#32))).write (env + 4#32).toNat
        (leBytes 4 s.memory.stackDepth)⟩ := by
  have hfirst := onMemory_storeInt_ok (s := { s with numJumps := s.numJumps + 1#32 })
    (s.numJumps + 1#32) hm hp
  have hsecond := onMemory_storeInt_ok (s := ⟨s.numJumps + 1#32, s.memory.write env.toNat
    (leBytes 4 (s.numJumps + 1#32))⟩) s.memory.stackDepth ((Memory.mapped_write ..).mpr hm') hp'
  rw [setjmp_def]
  simp only [bind, EStateM.bind, hfirst, hsecond]
  rfl

theorem onMemory_loadI32 {addr value : BitVec 32}
    (h : s.memory.Holds addr.toNat (leBytes 4 value)) (hp : Memory.InPage addr.toNat 4) :
    onMemory (Memory.loadI32 addr) s = .ok value s := by
  have hload : Memory.loadBytes addr 4 s.memory = .ok (leBytes 4 value) s.memory := by
    simpa using Memory.loadBytes_ok (by simp [leBytes]) h (by rwa [length_leBytes])
  simp only [onMemory, Memory.loadI32, bind, EStateM.bind, hload]
  rw [ofLeBytes_leBytes (by decide)]
  rfl

/-- `longjmp` closes the frames above the depth in the buffer. -/
theorem longjmp_eq {n : BitVec 32} {m : Memory} {bs : List Block} {fs : List OpenFrame} {k : ℕ}
    (h : Memory.FrameChain m m.registers bs fs) (hk : k ≤ fs.length)
    (hsaved : Saved m env id stackDepth)
    (hdepth : (closedRegisters m.registers fs k).stackDepth = stackDepth) (val : BitVec 32) :
    longjmp env val ⟨n, m⟩ =
      .error (newJump id val) ⟨n, m.setRegisters (closedRegisters m.registers fs k)⟩ := by
  obtain ⟨hrun, hrest⟩ := h.close hk
  obtain ⟨hlen, hroom⟩ := h.depth
  have hlen' := hrest.depth.1
  rw [List.length_drop, hdepth] at hlen'
  have hcount : (m.stackDepth - stackDepth).toInt.toNat = k := by
    have hnat : (m.stackDepth - stackDepth).toNat = k := by
      have hlen : m.stackDepth.toNat = fs.length := hlen
      simp only [memSize] at hroom
      rw [BitVec.toNat_sub, hlen, hlen']
      omega
    simp only [memSize] at hroom
    rw [Memory.toInt_eq, hnat, if_pos (by omega), Int.toNat_natCast]
  have hframes : onMemory (Memory.destroyStackFrames (m.stackDepth - stackDepth)) ⟨n, m⟩ =
      .ok () ⟨n, m.setRegisters (closedRegisters m.registers fs k)⟩ := by
    simp only [onMemory, Memory.destroyStackFrames, hcount, hrun]
  have hfirst := onMemory_loadI32 (s := ⟨n, m⟩) hsaved.holdsId hsaved.idInPage
  have hsecond := onMemory_loadI32 (s := ⟨n, m⟩) hsaved.holdsDepth hsaved.depthInPage
  have hget : onMemory Memory.getStackDepth ⟨n, m⟩ = .ok m.stackDepth ⟨n, m⟩ := rfl
  simp only [longjmp, bind, EStateM.bind, hfirst, hsecond, hget, hframes]
  rfl

end methods

end Jump

end Llxvm.Runtime
