import Retarget.Fault
import Retarget.Number.Decimal

/-!
# Values and failures of a run

A run computes with numbers and with pointers into named blocks of memory. Whoever starts a run may also
hand over null. What a program can do wrong
while it runs is a failure; it ends the run, and is a result of it.
-/
namespace Retarget

inductive Value where
  | number (value : Number)
  | pointer (block : String) (offset : Number)
  /-- No place at all. It passes for a pointer, but leads nowhere. -/
  | null
deriving DecidableEq, Repr

inductive Failure where
  | divisionByZero
  | pointerOrdering (comparison : String)
  | expectsNumber (routine : String)
  | expectsPointer (routine : String)
  | malformedString
  | pointerInString
  | noBlock (block : String)
  | outOfBounds (block : String) (offset : Number)
  | wrongArity (symbol : String) (expected got : Nat)
  | uninitialized (register : Numeral) (symbol : String)
  | holdsPointer (register : Numeral)
  | holdsNumber (register : Numeral)
  | exceeded (limit : Number)
  | noValue (symbol : String)
  | ranPast (symbol : String)
  | noFunction (symbol : String)
deriving DecidableEq, Repr

namespace Failure

def message : Failure → String
  | .divisionByZero => "division by zero"
  | .pointerOrdering comparison => s!"ordering comparison {comparison} on pointers"
  | .expectsNumber routine => s!"{routine} expects a number"
  | .expectsPointer routine => s!"{routine} expects a pointer"
  | .malformedString => "malformed string"
  | .pointerInString => "pointer stored in string data"
  | .noBlock block => s!"no memory block {block}"
  | .outOfBounds block offset => s!"access to {block}[{offset.text}] out of bounds"
  | .wrongArity symbol expected got => s!"{symbol} takes {expected} arguments, got {got}"
  | .uninitialized register symbol => s!"read of uninitialized r{register} in {symbol}"
  | .holdsPointer register => s!"r{register} holds a pointer, expected a number"
  | .holdsNumber register => s!"r{register} holds a number, expected a pointer"
  | .exceeded limit => s!"exceeded {limit} cycles"
  | .noValue symbol => s!"{symbol} returned no value"
  | .ranPast symbol => s!"{symbol} ran past its last instruction"
  | .noFunction symbol => s!"no function {symbol}"

end Failure

inductive Stop where
  | failure (failure : Failure)
  | fault (fault : Fault)
deriving DecidableEq, Repr

/-- A checked result as a step of a run. -/
def Checked.step {α : Type} : Checked α → Except Stop α
  | .ok value => .ok value
  | .error fault => .error (.fault fault)

end Retarget
