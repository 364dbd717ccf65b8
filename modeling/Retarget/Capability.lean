import Retarget.Graph.Calls
import Retarget.Target
import Retarget.Ty.Width

/-!
# Capabilities

What a procedure needs from its target, checked against what the target has.
-/
namespace Retarget

def Ty.features : Ty → Checked (List Feature)
  | .integer bits _ => .ok (if 16 < bits then [.integer32] else [])
  | .fixed encoding => .ok (if 16 < encoding.usedBits then [.fixedPoint, .integer32] else [.fixedPoint])
  | .pointer _ => .ok [.pointers]
  | .boolean => .ok []
  | type => .error (type.unhandled "typeFeatures")

/-- The features that a procedure needs, in the order in which they are listed. -/
def Procedure.requiredFeatures (p : Procedure) : Checked (List Feature) := do
  let needed ← p.registers.mapM fun r => r.type.features
  let needed := (if p.convention = .smc then [.smc] else []) ++ needed.flatten
  return Feature.all.filter fun feature => needed.contains feature

namespace Program

def procedureConflicts (program : Program) (target : Target) (p : Procedure) :
    Checked (List Diagnostic) := do
  let name ← p.symbol.text
  let missing := (← p.requiredFeatures).filter fun f => !target.descriptor.features.contains f
  let missing := missing.map fun f => Diagnostic.missingCapability name target.name f.name
  if p.convention = .smc && target.supportsSmc then
    match ← program.recursionCycle p with
    | some cycle => return missing ++ [.conventionConflict name cycle]
    | none => return missing
  else return missing

/-- Finds the faults that keep the needs of a program from being known. -/
def checkNeeds (program : Program) : Checked Unit :=
  program.procedures.forM fun p => do
    let _ ← p.symbol.text
    let _ ← p.requiredFeatures

/-- What keeps a program from being emitted for a target, in the order of its procedures. -/
def checkCapabilities (program : Program) (target : Target) : Checked (List Diagnostic) := do
  return (← program.procedures.mapM (program.procedureConflicts target)).flatten

end Program

end Retarget
