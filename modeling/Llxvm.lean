import Llxvm.Backend.Branch
import Llxvm.Backend.BranchRange
import Llxvm.Backend.CallAgreement
import Llxvm.Backend.Cast
import Llxvm.Backend.Compare
import Llxvm.Backend.EmptyStack
import Llxvm.Backend.FloatConstants
import Llxvm.Backend.GepAddress
import Llxvm.Backend.GlobalNames
import Llxvm.Backend.IndirectBranch
import Llxvm.Backend.IntConstants
import Llxvm.Backend.Intrinsics
import Llxvm.Backend.JumpRuns
import Llxvm.Backend.KrakatauLabels
import Llxvm.Backend.LabelNames
import Llxvm.Backend.LocalsCount
import Llxvm.Backend.MethodSlots
import Llxvm.Backend.ModuleRuns
import Llxvm.Backend.Printable
import Llxvm.Backend.RewrittenRuns
import Llxvm.Backend.StaticPlacement
import Llxvm.Backend.StructOffsets
import Llxvm.Backend.VaArg
import Llxvm.Driver.Resolution
import Llxvm.Jlinker.SymbolBounds
import Llxvm.Jreflect.Acceptance
import Llxvm.Jreflect.PoolIndex
import Llxvm.Runtime.Access
import Llxvm.Runtime.Decompositions
import Llxvm.Runtime.Heap
import Llxvm.Runtime.RandomAccess
import Llxvm.Runtime.Segments
import Llxvm.Runtime.Strings
