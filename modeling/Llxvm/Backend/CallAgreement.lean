import Mathlib.Algebra.BigOperators.Group.List.Basic
import Llxvm.Backend.FunctionCall

/-!
# Direct and indirect calls

When both ways of calling a function deliver the same parameters.
-/

namespace Llxvm.Backend

open Llxvm.Jvm Llxvm.Runtime Llxvm.Runtime.Memory Align LittleEndian

/-! ## Calls that fit -/

section fits

variable {env : Env} {opts : GenerationOpts} {tys : List Ty} {ptr : BitVec 32}

/-- The address of the block. -/
def CallSite.block (site : CallSite env opts tys ptr) : BitVec 32 :=
  pushed site.config.memory.stackPointer (pushedSize (packedSize tys))

variable {t : FunctionTable} {f : FunctionRef}

end fits

/-! ## Agreement -/

section agreement

variable {env : Env} {opts : GenerationOpts} {t : FunctionTable} {f : FunctionRef}
  {ptr : BitVec 32} {tys : List Ty}

end agreement

/-! ## A call for every list of types -/

section zero

variable {env : Env} {opts : GenerationOpts} {w : Writer} {locals : Locals} {ty : Ty}

end zero

section site

variable (env : Env) (opts : GenerationOpts) {tys : List Ty} (ptr : BitVec 32)

end site

theorem PacksAs.unique {env : Env} {opts : GenerationOpts} {w : Writer} {locals : Locals}
    (hw : w.Fresh) {v : Value} {a b : Prim} (ha : PacksAs env opts w locals v a)
    (hb : PacksAs env opts w locals v b) : a = b := by
  obtain ⟨x, hx, hxa⟩ := ha
  obtain ⟨y, hy, hyb⟩ := hb
  obtain ⟨is, w₁, hprint, -, hrun⟩ := hx w hw rfl rfl
  obtain ⟨is', w₂, hprint', -, hrun'⟩ := hy w hw rfl rfl
  cases hprint.symm.trans hprint'
  have heq := (hrun ⟨locals, [], .initial⟩ rfl).symm.trans (hrun' ⟨locals, [], .initial⟩ rfl)
  simp only [Config.push, Exit.fall.injEq, Config.mk.injEq, List.cons.injEq] at heq
  obtain rfl := heq.2.1.1
  exact Option.some.inj (hxa.symm.trans hyb)

section unfit

variable {env : Env} {opts : GenerationOpts} {t : FunctionTable} {f : FunctionRef}
  {ptr : BitVec 32} {tys : List Ty}

end unfit

end Llxvm.Backend
