import Retarget.Graph.Calls
import Retarget.Optimize.Peephole
import Retarget.Optimize.TailCall
import Retarget.Options

/-!
# The optimiser

Every procedure is optimised by itself; then the calling conventions are chosen. The self-modifying
convention goes only to procedures that cannot be entered again once their tail calls are gone.
-/
namespace Retarget

def Procedure.optimize (passes : Passes) (p : Procedure) : Checked Procedure := do
  let q ← if passes.peephole then p.peephole else pure p
  let q := { q with isTailRecursive := q.callsItselfLast }
  if passes.tailCalls && q.isTailRecursive then
    if passes.peephole then q.convertTailCalls.peephole else return q.convertTailCalls
  else return q

def Procedure.wantsSmc (policy : SmcPolicy) (p : Procedure) : Bool :=
  match policy with
  | .all => true
  | .annotated => p.smcRequested
  | .none => false

namespace Program

def chooseConvention (program : Program) (policy : SmcPolicy) (allowsSmc : Bool) (p : Procedure) :
    Checked (Except Diagnostic Procedure) := do
  if allowsSmc && p.wantsSmc policy then
    match ← program.recursionCycle p with
    | some cycle => return .error (.conventionConflict (← p.symbol.text) cycle)
    | none => return .ok { p with convention := .smc }
  else return .ok p

/-- The optimised program, or all conflicts of conventions. All that matters about the target is whether
it allows the self-modifying convention. -/
def optimize (program : Program) (passes : Passes) (policy : SmcPolicy) (allowsSmc : Bool) :
    Checked (Outcome Program) := do
  let optimized := { program with procedures := ← program.procedures.mapM (·.optimize passes) }
  let chosen ← optimized.procedures.mapM (optimized.chooseConvention policy allowsSmc)
  return (Outcome.collect chosen).map fun procedures => { optimized with procedures }

end Program

end Retarget
