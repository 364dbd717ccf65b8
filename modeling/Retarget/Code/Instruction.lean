import Retarget.Code.Register
import Retarget.Code.Symbol
import Retarget.Number.Decimal
import Retarget.Operator

/-!
# Instructions

The three-address intermediate code. An instruction reads some registers and writes at most one; `reads`
and `writes` say which, and everything that moves code around relies on them.
-/
namespace Retarget

inductive Direction where
  | increment
  | decrement
deriving DecidableEq, Repr

def Direction.name : Direction → String
  | .increment => "increment"
  | .decrement => "decrement"

inductive CallTarget where
  | function (symbol : Symbol)
  | routine (routine : Routine)
deriving DecidableEq, Repr

def CallTarget.text : CallTarget → Checked String
  | .function symbol => symbol.text
  | .routine r => .ok r.name

inductive Operation where
  | loadImmediate (value : Number) (destination : Register)
  | move (source target : Register)
  | binary (operator : Operator) (lhs rhs destination : Register)
  | compare (comparison : Comparison) (lhs rhs destination : Register)
  /-- Whether the source is zero, or is not zero when negated. -/
  | testZero (source : Register) (negated : Bool) (destination : Register)
  | convert (source target : Register)
  /-- Adds the type's one, or takes it away. -/
  | step (direction : Direction) (register : Register)
  | label (name : String)
  | goto (label : String)
  | gotoIfFalse (condition : Register) (label : String)
  | call (target : CallTarget) (arguments : List Register) (destination : Option Register)
  | ret (register : Option Register)
  | addressOf (symbol : DataSymbol) (destination : Register)
  /-- The address of an element: the base moved on by as many elements as the index says. -/
  | arrayIndex (base index destination : Register)
  | load (address destination : Register)
  | store (address value : Register)
  /-- An operation of no known kind, as the JSON text of the whole instruction. -/
  | unknown (node : String)
deriving DecidableEq, Repr

/-- An operation with a note on where it came from. -/
structure Instruction where
  operation : Operation
  why : String
deriving DecidableEq, Repr

namespace Operation

/-! ## Registers read and written -/

def reads : Operation → List Register
  | .loadImmediate _ _ | .label _ | .goto _ | .addressOf _ _ => []
  | .move source _ | .convert source _ => [source]
  | .binary _ lhs rhs _ | .compare _ lhs rhs _ => [lhs, rhs]
  | .testZero source _ _ => [source]
  | .step _ register => [register]
  | .gotoIfFalse condition _ => [condition]
  | .call _ arguments _ => arguments
  | .ret register => register.toList
  | .arrayIndex base index _ => [base, index]
  | .load address _ => [address]
  | .store address value => [address, value]
  | .unknown _ => []

def writes : Operation → List Register
  | .loadImmediate _ destination | .binary _ _ _ destination | .compare _ _ _ destination
  | .testZero _ _ destination | .addressOf _ destination | .arrayIndex _ _ destination
  | .load _ destination => [destination]
  | .move _ target | .convert _ target => [target]
  | .step _ register => [register]
  | .call _ _ destination => destination.toList
  | .label _ | .goto _ | .gotoIfFalse _ _ | .ret _ | .store _ _ | .unknown _ => []

/-- The operation with the registers that it reads renamed. Stepping reads and writes one register, so
renaming it renames both. -/
def mapReads (f : Register → Register) : Operation → Operation
  | .move source target => .move (f source) target
  | .convert source target => .convert (f source) target
  | .binary operator lhs rhs destination => .binary operator (f lhs) (f rhs) destination
  | .compare comparison lhs rhs destination => .compare comparison (f lhs) (f rhs) destination
  | .testZero source negated destination => .testZero (f source) negated destination
  | .step direction register => .step direction (f register)
  | .gotoIfFalse condition name => .gotoIfFalse (f condition) name
  | .call target arguments destination => .call target (arguments.map f) destination
  | .ret register => .ret (register.map f)
  | .arrayIndex base index destination => .arrayIndex (f base) (f index) destination
  | .load address destination => .load (f address) destination
  | .store address value => .store (f address) (f value)
  | operation => operation

/-- The operation with its plain destination renamed; one without is left alone. -/
def mapWrites (f : Register → Register) : Operation → Operation
  | .loadImmediate value destination => .loadImmediate value (f destination)
  | .move source target => .move source (f target)
  | .convert source target => .convert source (f target)
  | .binary operator lhs rhs destination => .binary operator lhs rhs (f destination)
  | .compare comparison lhs rhs destination => .compare comparison lhs rhs (f destination)
  | .testZero source negated destination => .testZero source negated (f destination)
  | .call target arguments destination => .call target arguments (destination.map f)
  | .addressOf symbol destination => .addressOf symbol (f destination)
  | .arrayIndex base index destination => .arrayIndex base index (f destination)
  | .load address destination => .load address (f destination)
  | operation => operation

/-- Reads first, then writes. -/
def mapRegisters (f : Register → Register) (operation : Operation) : Operation :=
  (operation.mapReads f).mapWrites f

def jumpTarget? : Operation → Option String
  | .goto name | .gotoIfFalse _ name => some name
  | _ => none

/-- Refuses an operation of no known kind, in the name of the place that met it. -/
def known (place : String) : Operation → Checked Unit
  | .unknown node => .error (.unhandled node place)
  | _ => .ok ()

/-! ## Text -/

def text : Operation → Checked String
  | .loadImmediate value destination => .ok s!"{destination.text} = {value.text}"
  | .move source target => .ok s!"{target.text} = {source.text}"
  | .binary operator lhs rhs destination =>
    .ok s!"{destination.text} = {lhs.text} {operator.symbol} {rhs.text}"
  | .compare comparison lhs rhs destination =>
    .ok s!"{destination.text} = {lhs.text} {comparison.text} {rhs.text}"
  | .testZero source negated destination =>
    let sign := if negated then "!=" else "=="
    .ok s!"{destination.text} = {source.text} {sign} 0"
  | .convert source target => .ok s!"{target.text} = (convert) {source.text}"
  | .step .increment register => .ok s!"{register.text}++"
  | .step .decrement register => .ok s!"{register.text}--"
  | .label name => .ok s!"{name}:"
  | .goto name => .ok s!"goto {name}"
  | .gotoIfFalse condition name => .ok s!"if (!{condition.text}) goto {name}"
  | .call target arguments destination => do
    let list := Text.join ", " (arguments.map Register.text)
    let call := (← target.text) ++ "(" ++ list ++ ")"
    match destination with
    | some register => return s!"{register.text} = {call}"
    | none => return call
  | .ret (some register) => .ok s!"return {register.text}"
  | .ret none => .ok "return"
  | .addressOf symbol destination => .ok s!"{destination.text} = &{symbol.text}"
  | .arrayIndex base index destination => .ok s!"{destination.text} = &{base.text}[{index.text}]"
  | .load address destination => .ok s!"{destination.text} = *{address.text}"
  | .store address value => .ok s!"*{address.text} = {value.text}"
  | .unknown node => .error (.unhandled node "toStringWithoutComment")

def isLabel : Operation → Bool
  | .label _ => true
  | _ => false

/-- Whether the operation is the label of the given name. -/
def labels (name : String) : Operation → Bool
  | .label other => other == name
  | _ => false

end Operation

namespace Instruction

def reads (i : Instruction) : List Register := i.operation.reads

def writes (i : Instruction) : List Register := i.operation.writes

/-- The operation, set in unless it is a label, and its note. -/
def text (i : Instruction) : Checked String := do
  let note := Text.trim i.why
  let margin := if i.operation.isLabel then "" else "    "
  return margin ++ (← i.operation.text) ++ ";" ++ (if note = "" then "" else " " ++ note)

end Instruction

end Retarget
