import ObjcLowering.Methods
import ObjcLowering.Properties
import ObjcLowering.TypeArguments.Check

namespace ObjcLowering.Module

/-- Completes a module: hierarchy, accessors, numbers, dispatch, conformance, type arguments and
initialisers. A cycle of superclasses has no completion. -/
def complete (m : Module) : Except Fault Module := do
  let m ← Hierarchy.validate m
  let m ← Properties.synthesize m
  let m ← Hierarchy.assignIds (Methods.checkDuplicates m)
  let m ← Methods.classify (Hierarchy.computeDepths m)
  let m ← Methods.checkConformance m
  let m ← TypeArguments.validate m
  return Methods.collectInitializers m

end ObjcLowering.Module
