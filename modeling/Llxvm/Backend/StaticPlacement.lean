import Llxvm.Backend.GepAddress
import Llxvm.Backend.StaticPieces

/-!
# Placement of static initialisers

The leaves of an initialiser are where `printGepInstruction` looks for them if no block is as far
behind the one before it as its alignment: `pack` aligns the address, but `zero` does not, and
neither undefined aggregates nor the padding at the end of a struct advance it.
-/

namespace Llxvm.Backend

open Llxvm.Jvm Llxvm.Runtime Align DataLayout Placement

/-! ## Paths -/

section paths

variable {env : Env} {opts : GenerationOpts}

end paths

/-! ## Leaves in their places -/

section leaves

variable (env : Env) (opts : GenerationOpts) (value : Constant → Option (List (BitVec 8)))

variable {env} {opts} {value} {c : Constant} {ps : List (Piece (BitVec 8))}
  {exprValue : Constant → Option LlvmVal}

variable {w : Writer}

end leaves

end Llxvm.Backend
