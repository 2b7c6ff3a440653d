import ObjcLowering.Main
import ObjcLowering.Proofs.Dispatch.Accessors
import ObjcLowering.Proofs.DispatchSlots
import ObjcLowering.Proofs.Hierarchy.Initializers
import ObjcLowering.Proofs.Hierarchy.Lineages
import ObjcLowering.Proofs.Lowering.Balance
import ObjcLowering.Proofs.Lowering.DeallocPaths
import ObjcLowering.Proofs.Lowering.Discipline
import ObjcLowering.Proofs.Lowering.IvarAccess
import ObjcLowering.Proofs.Lowering.IvarStores
import ObjcLowering.Proofs.Lowering.LostParts
import ObjcLowering.Proofs.Lowering.MacroCopies
import ObjcLowering.Proofs.Lowering.Spellings
import ObjcLowering.Proofs.Lowering.StringLengths
import ObjcLowering.Proofs.Lowering.StringNames
import ObjcLowering.Proofs.Lowering.SwitchBreaks
import ObjcLowering.Proofs.Lowering.TempOrder
import ObjcLowering.Proofs.Module.Remembering
import ObjcLowering.Proofs.Module.StaticInitializers
import ObjcLowering.Proofs.Output.FieldPaths
import ObjcLowering.Proofs.Patched.KeptFunctions
import ObjcLowering.Proofs.Patched.KeptText
import ObjcLowering.Proofs.Patched.Multiplicity
import ObjcLowering.Proofs.Pools.ForwardDeclarations
import ObjcLowering.Proofs.Pools.PathSums
import ObjcLowering.Proofs.Pools.Reachability
import ObjcLowering.Proofs.Program.Outcomes
import ObjcLowering.Proofs.Program.PoolSizes
import ObjcLowering.Proofs.RetainCycles.Closure
import ObjcLowering.Proofs.RetainCycles.Reports
import ObjcLowering.Proofs.SourceTypes.Blocks
import ObjcLowering.Proofs.SourceTypes.Pointers
import ObjcLowering.Proofs.SourceTypes.Totality
