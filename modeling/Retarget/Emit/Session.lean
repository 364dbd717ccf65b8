import Retarget.Code.Program
import Retarget.Diagnostic
import Retarget.Emit.Line
import Retarget.Target

/-!
# Emitting one procedure at a time

Every procedure is emitted by itself, from a fresh session: a counter for the names that the emitter
makes, and the names that the output needs from outside. A procedure that cannot be expressed on the
target is reported and does not touch the others.
-/
namespace Retarget

inductive Halt where
  | refused (message : String)
  | fault (fault : Fault)
deriving DecidableEq, Repr

structure Session where
  numbers : Nat
  externals : List String
deriving DecidableEq, Repr

abbrev Emit := StateT Session (Except Halt)

namespace Emit

def check {α : Type} : Checked α → Emit α
  | .ok value => pure value
  | .error fault => throw (.fault fault)

def refuse {α : Type} (message : String) : Emit α := throw (.refused message)

def nextNumber : Emit Nat := do
  let number := (← get).numbers + 1
  modify fun s => { s with numbers := number }
  return number

def makeLabel (kind : String) : Emit String := do
  let number ← nextNumber
  return s!"{kind}_{number}"

def useExternal (name : String) : Emit String := do
  modify fun s => { s with externals := s.externals ++ [name] }
  return name

/-- The lines of instructions one after the other; their notes go to the first instruction that is made of each. -/
def selectEach {ι : Type} (select : Operation → Emit (List (Line ι))) : List Instruction → Emit (List (Line ι))
  | [] => return []
  | i :: rest => do
    let lines ← select i.operation
    return Line.withWhy i.why lines ++ (← selectEach select rest)

def runFresh {α : Type} (emission : Emit α) : Except Halt (α × List String) :=
  match emission.run ⟨0, []⟩ with
  | .ok (result, session) => .ok (result, session.externals)
  | .error halt => .error halt

def report {α : Type} (target : Target) (p : Procedure) (emission : Emit α) :
    Checked (Except Diagnostic (α × List String)) :=
  match emission.runFresh with
  | .ok result => .ok (.ok result)
  | .error (.fault fault) => .error fault
  | .error (.refused message) => do
    return .error (.emitterInternal (← p.symbol.text) target.name message)

/-- What all procedures become and the names that they need from outside, sorted and each once; or the
errors of all that cannot be emitted. -/
def each {α : Type} (target : Target) (procedures : List Procedure) (emission : Procedure → Emit α) :
    Checked (Outcome (List α × List String)) := do
  let results ← procedures.mapM fun p => report target p (emission p)
  return (Outcome.collect results).map fun emitted =>
    (emitted.map Prod.fst, Text.sortDistinct (emitted.flatMap Prod.snd))

end Emit

end Retarget
