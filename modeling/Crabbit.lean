import Crabbit.Aarch64.ElfObject
import Crabbit.Aarch64.EncodeSound
import Crabbit.Aarch64.AbiAgreement
import Crabbit.Aarch64.Ops
import Crabbit.Aarch64.RegisterText
import Crabbit.Aarch64.LiveIntervals
import Crabbit.Aarch64.AllocationSound
import Crabbit.Llvm.DivStrengthReduceExact
import Crabbit.Llvm.ConstantFold
import Crabbit.Aarch64.FoldBinary
import Crabbit.Llvm.Confinement
import Crabbit.Llvm.Dse
import Crabbit.Llvm.DseSound
import Crabbit.Llvm.GvnSound
import Crabbit.Llvm.SimplifyCfgSound
import Crabbit.X86.AbiAgreement
import Crabbit.X86.FrameSound
import Crabbit.Bpgo.Walk
import Crabbit.Lib.X64
import Crabbit.X86.Encoding
import Crabbit.X86.EncodeSound
import Crabbit.Lib.Sweeps
import Crabbit.Nvptx.Ir
import Crabbit.Nvptx.Layout
import Crabbit.Nvptx.Runs
import Crabbit.Nvptx.Spaces
import Crabbit.Nvptx.SpacesSound
import Crabbit.Nvptx.ReadonlySound
import Crabbit.Nvptx.AddrFoldSound
import Crabbit.Nvptx.VectorLoadsSound
import Crabbit.Nvptx.GepForms
import Crabbit.Nvptx.EmitSound
import Crabbit.Importer.RustcLayout
import Crabbit.Importer.EnumTag
import Crabbit.Importer.FieldAccess
import Crabbit.Importer.FieldsReadBack
import Crabbit.Lib.Segments
import Crabbit.Importer.CallAbi
import Crabbit.Importer.CallReturn
import Crabbit.Importer.RealLayoutLoads
import Crabbit.Importer.FnPtrThunk
import Crabbit.Lib.Rewriting
import Crabbit.Llvm.ConstantFoldSound
import Crabbit.Llvm.ConstantFoldTerminates
import Crabbit.Isel.I128Exact
import Crabbit.Isel.BlockArgsExact
import Crabbit.Aarch64.AddressSemantics
import Crabbit.X86.ModuleLayout
import Crabbit.X86.PlacementSound
import Crabbit.Bpgo.AlignExact
import Crabbit.Mir.PointerOffset
import Crabbit.Mir.CheckedArithExact
import Crabbit.Mir.BitIntrinsicsExact
import Crabbit.Aarch64.WideMoves
import Crabbit.Llvm.BitsetFixpoint
import Crabbit.Aarch64.BlockOrder
import Crabbit.Importer.ByteStrings
import Crabbit.Mir.SimdLanes
import Crabbit.Ll.AttributesRoundTrip
import Crabbit.PlironTrace.RoundTrip
import Crabbit.Llvm.PostDominatorsExact
import Crabbit.Llvm.DominanceFrontiers
import Crabbit.Llvm.NaturalLoops
