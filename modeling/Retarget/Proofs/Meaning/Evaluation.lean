import Retarget.Lower.Module
import Retarget.Run.Machine

/-!
# Evaluation of source trees

What the functions of a module mean, told by their trees: expressions give values, statements change variables
and memory, and there is neither code nor a register. Variables are in scope to the end of their block. A tree
may go on for ever, so evaluation is given fuel: as many rounds of every loop, and calls inside each other, as it
says. An evaluation that does not use it up has found out what the tree means.

Reading memory between two cells finds nothing there. That goes unnoticed until the value is used.
-/
namespace Retarget.Source

/-- What evaluation changes besides variables. -/
structure Store where
  memory : Memory
  /-- Code units printed so far. -/
  output : List UInt16

/-- Why an evaluation gives no result. -/
inductive Reason where
  /-- The fuel is used up. -/
  | exhausted
  | stopped (stop : Stop)
  /-- A pointer is given where a number is asked for. -/
  | pointerGiven
  /-- A number is given where a pointer is asked for. -/
  | numberGiven
  /-- A function uses a value from where nothing is stored. -/
  | nothingGiven (function : Symbol)
deriving DecidableEq, Repr

/-- Evaluation: changes the store, or halts. What was printed before stays printed. -/
abbrev Eval := ExceptT Reason (StateM Store)

/-- A function with its type parameters bound. -/
structure Function where
  symbol : Symbol
  declaration : Declaration
  bindings : Assoc String Ty

/-! ## Variables -/

structure Variable where
  name : String
  type : Ty
  value : Value

/-- The variables in scope, the innermost first. -/
abbrev Locals := List Variable

namespace Locals

def lookup? (locals : Locals) (name : String) : Option Variable := locals.find? (·.name == name)

/-- Gives the innermost variable of a name another value. -/
def assign (name : String) (value : Value) : Locals → Locals
  | [] => []
  | x :: rest => if x.name = name then { x with value } :: rest else x :: assign name value rest

/-- What is left of the variables at the end of a block that began with the outer ones. -/
def leave (outer inner : Locals) : Locals := inner.drop (inner.length - outer.length)

end Locals

/-! ## Values in use -/

section
variable (function : Symbol) (given : Option Value)

def demand : Except Reason Value :=
  match given with
  | some value => .ok value
  | none => .error (.nothingGiven function)

def demandNumber : Except Reason Number := do
  match ← demand function given with
  | .number value => return value
  | .pointer .. | .null => throw .pointerGiven

/-- Null is a pointer, too. -/
def demandPointer : Except Reason Value := do
  match ← demand function given with
  | .number _ => throw .numberGiven
  | pointer => return pointer

def demandPlace : Except Reason (String × Number) := do
  match ← demandPointer function given with
  | .pointer block offset => return (block, offset)
  | _ => throw (.stopped (.failure (.noBlock "null")))

/-- The result of a binary operation at a type. -/
def combine (operator : Operator) (type : Ty) (left right : Option Value) : Except Reason Value := do
  let x ← demandNumber function left
  let y ← demandNumber function right
  return .number (← (evaluateBinary operator type x y).mapError .stopped)

def compare (comparison : Comparison) (left right : Option Value) : Except Reason Value := do
  let x ← demand function left
  let y ← demand function right
  return Activation.truth (← (evaluateComparison comparison x y).mapError .stopped)

/-- The logical opposite: whether a value is the number zero. -/
def negate : Except Reason Value := do
  match ← demand function given with
  | .number x => return Activation.truth x.isZero
  | .pointer .. | .null => return Activation.truth false

/-- A value of one type as one of another, where only pointers become pointers. What has the type already stays as it
is, unless conversions are strict. -/
def convert (strict : Bool) (source target : Ty) : Except Reason Value :=
  if source = target ∧ ¬ (strict ∧ (target.isNumeric ∨ target = .boolean)) then demand function given
  else if target.isPointer then demandPointer function given
  else do
    let x ← demandNumber function given
    return .number (← (evaluateConversion x source target).step.mapError .stopped)

/-- The place of an array's element, by its index. -/
def element (block : String) : Except Reason (String × Number) := do
  let x ← demandNumber function given
  return (block, (0 : Number).add x)

end

namespace Eval

variable {α : Type}

def of (x : Except Reason α) : Eval α := ExceptT.mk (pure x)

def step (x : Except Stop α) : Eval α := of (x.mapError .stopped)

def check (x : Checked α) : Eval α := step x.step

def load (block : String) (offset : Number) : Eval (Option Value) := do
  step (((← get).memory.read block offset).mapError .failure)

def save (block : String) (offset : Number) (value : Value) : Eval Unit := do
  let memory ← step (((← get).memory.write block offset value).mapError .failure)
  modify fun s => { s with memory }

def print (routine : Routine) (values : List Value) : Eval Unit := do
  let (units, stop) := routine.print (← get).memory values
  modify fun s => { s with output := s.output ++ units }
  match stop with
  | some stop => throw (.stopped stop)
  | none => pure ()

def operator (sign : String) : Eval Operator :=
  match Operator.ofSymbol? sign with
  | some operator => pure operator
  | none => check (.error (.operatorNotHandled sign))

/-- What a call of a type gives for what the function returned. Only a call of type void needs no value back. -/
def received (function : Symbol) (type : Ty) (returned : Option Value) : Eval (Option Value) := do
  if type = .void then return none
  match returned with
  | some value => return some value
  | none => throw (.stopped (.failure (.noValue (← check function.text))))

end Eval

def Locals.find (locals : Locals) (name : String) : Eval Variable :=
  match locals.lookup? name with
  | some x => pure x
  | none => .check (.error (.unresolvedIdentifier name))

/-- How a statement ends. -/
inductive Flow where
  | goesOn (locals : Locals)
  | returns (value : Option Value)

/-- Goes on for as many rounds as the fuel allows while the test holds. -/
def Eval.loop (test : Locals → Eval Bool) (body : Locals → Eval Flow) : Nat → Locals → Eval Flow
  | 0, _ => throw .exhausted
  | fuel + 1, locals => do
    if ← test locals then
      match ← body locals with
      | .goesOn locals => loop test body fuel locals
      | .returns value => return .returns value
    else return .goesOn locals

/-- Forgets the variables of a block at its end. -/
def Eval.block (body : Locals → Eval Flow) (locals : Locals) : Eval Flow := do
  match ← body locals with
  | .goesOn inner => return .goesOn (locals.leave inner)
  | .returns value => return .returns value

/-! ## Names -/

namespace Module

variable (module : Module)

def global? (name : String) : Option GlobalDeclaration := module.globals.find? (·.name == name)

def declaration (name : String) : Checked Declaration :=
  match module.functions.find? (·.name == name) with
  | some declaration => .ok declaration
  | none => .error (.unresolvedFunction name)

def function (bindings : Assoc String Ty) : Callee → Checked Function
  | .function name => do
    let declaration ← module.declaration name
    return ⟨⟨module.name, declaration.name, []⟩, declaration, []⟩
  | .generic name typeArguments => do
    let declaration ← module.declaration name
    let concrete ← typeArguments.mapM (·.substitute bindings)
    let mangling ← mangling declaration concrete
    return ⟨⟨module.name, declaration.name, mangling⟩, declaration, bindTypeParameters declaration concrete⟩
  | .routine routine => .error (.unresolvedFunction routine.name)
  | .unknown node => .error (.unresolvedFunction node)

end Module

/-- What the evaluation of a function may look up. -/
structure Evaluator where
  module : Module
  /-- The strings of the whole program, in order. -/
  strings : List String
  function : Function
  /-- As many rounds as a loop may take. -/
  fuel : Nat
  /-- Whether a conversion of a number to the type that it has is computed, too. -/
  strict : Bool
  call : Function → List Value → Eval (Option Value)

namespace Evaluator

variable (E : Evaluator)

def resolve (type : Ty) : Eval Ty := .check (type.substitute E.function.bindings)

def typeOf (e : Expression) : Eval Ty :=
  match e.type? with
  | some type => E.resolve type
  | none => .check (.error (.unhandled "expression" "typeOf"))

def block (name : String) : Eval String :=
  match E.module.global? name with
  | some g => pure (globalName E.module.name g.name)
  | none => .check (.error (.unresolvedGlobal name))

/-! ## Expressions -/

/-- The value of a string literal: the address of its record. -/
def literal (value : String) : Eval Value :=
  match E.strings.findIdx? (· == value) with
  | some index => pure (.pointer (literalName (.natural index)) 0)
  | none => .check (.error (.unhandled (Text.quote value) "literal"))

def invoke (callee : Callee) (given : List (Option Value)) (type : Ty) : Eval (Option Value) := do
  match callee with
  | .routine routine =>
    let values ← .of (given.mapM (demand E.function.symbol))
    Eval.print routine values
    return none
  | callee =>
    let f ← .check (E.module.function E.function.bindings callee)
    let type ← E.resolve type
    let values ← .of (given.mapM (demand E.function.symbol))
    let returned ← E.call f values
    Eval.received f.symbol type returned

mutual

/-- What an expression gives. Operands are evaluated from left to right, and are used once all of them are
there. -/
def evaluate (locals : Locals) : Expression → Eval (Option Value)
  | .number value type _ => do
    let type ← E.resolve type
    return some (.number (← .check (Lower.encodeLiteral value type)))
  | .boolean value _ => return some (Activation.truth value)
  | .string value _ => return some (← E.literal value)
  | .identifier name _ _ => return some (← locals.find name).value
  | .global name _ _ => do
    let block ← E.block name
    Eval.load block 0
  | .binary sign lhs rhs type _ => do
    let operator ← .operator sign
    let type ← E.resolve type
    let left ← evaluate locals lhs
    let right ← evaluate locals rhs
    return some (← .of (combine E.function.symbol operator type left right))
  | .comparison comparison lhs rhs _ => do
    let left ← evaluate locals lhs
    let right ← evaluate locals rhs
    return some (← .of (compare E.function.symbol comparison left right))
  | .not operand _ => do
    let given ← evaluate locals operand
    return some (← .of (negate E.function.symbol given))
  | .call callee arguments type _ => do
    let given ← evaluateAll locals arguments
    E.invoke callee given type
  | .index array index _ _ => do
    let block ← E.block array
    let given ← evaluate locals index
    let (block, offset) ← .of (element E.function.symbol given block)
    Eval.load block offset
  | .addressOf name _ _ => return some (.pointer (← E.block name) 0)
  | .dereference pointer _ _ => do
    let given ← evaluate locals pointer
    let (block, offset) ← .of (demandPlace E.function.symbol given)
    Eval.load block offset
  | .convert operand type _ => do
    let source ← E.typeOf operand
    let target ← E.resolve type
    let given ← evaluate locals operand
    return some (← .of (convert E.function.symbol given E.strict source target))
  | .ternary condition whenTrue whenFalse _ _ => do
    let given ← evaluate locals condition
    let x ← .of (demandNumber E.function.symbol given)
    let given ← if x.isZero then evaluate locals whenFalse else evaluate locals whenTrue
    return some (← .of (demand E.function.symbol given))
  | .unknown node _ => .check (.error (.unhandled node "evaluate"))

def evaluateAll (locals : Locals) : List Expression → Eval (List (Option Value))
  | [] => return []
  | e :: rest => do
    let first ← evaluate locals e
    return first :: (← evaluateAll locals rest)

end

/-! ## Statements -/

/-- Assigns a value. Where to is found out before the value, except that a variable has no address. -/
def assign (locals : Locals) (value : Expression) : Assignee → Eval Locals
  | .variable name => do
    let given ← E.evaluate locals value
    return locals.assign name (← .of (demand E.function.symbol given))
  | .global name => do
    let block ← E.block name
    let given ← E.evaluate locals value
    Eval.save block 0 (← .of (demand E.function.symbol given))
    return locals
  | .index array index => do
    let block ← E.block array
    let given ← E.evaluate locals index
    let (block, offset) ← .of (element E.function.symbol given block)
    let given ← E.evaluate locals value
    Eval.save block offset (← .of (demand E.function.symbol given))
    return locals
  | .dereference pointer => do
    let address ← E.evaluate locals pointer
    let given ← E.evaluate locals value
    let (block, offset) ← .of (demandPlace E.function.symbol address)
    Eval.save block offset (← .of (demand E.function.symbol given))
    return locals
  | .unknown node => .check (.error (.unhandled node "assignment target"))

/-- Adds the type's one to a variable, or takes it away; the result wraps around. -/
def step (locals : Locals) (operator : Operator) (name : String) : Eval Locals := do
  let x ← locals.find name
  let one := Value.number (.ofNat x.type.one)
  return locals.assign name (← .of (combine E.function.symbol operator x.type (some x.value) (some one)))

/-- Whether the condition holds. -/
def holds (locals : Locals) (condition : Expression) : Eval Bool := do
  let given ← E.evaluate locals condition
  return !(← .of (demandNumber E.function.symbol given)).isZero

/-- Whether a counter has not come up to the limit. -/
def below (limit : Option Value) (name : String) (locals : Locals) : Eval Bool := do
  let x ← locals.find name
  let y ← .of (demand E.function.symbol limit)
  .step (evaluateComparison .lt x.value y)

/-- A round of a counting loop: the counter goes on behind the body. -/
def round (counter : String) (body : Locals → Eval Flow) (locals : Locals) : Eval Flow := do
  match ← Eval.block body locals with
  | .goesOn locals => return .goesOn (← E.step locals .add counter)
  | .returns value => return .returns value

/-- Counts from one bound up to the other. Both are evaluated once, ahead of all rounds. -/
def count (counter : String) (type : Ty) (first limit : Expression) (body : Locals → Eval Flow) (locals : Locals) :
    Eval Flow := do
  let start ← E.evaluate locals first
  let bound ← E.evaluate locals limit
  let type ← E.resolve type
  let x ← .of (demand E.function.symbol start)
  Eval.loop (E.below bound counter) (E.round counter body) E.fuel (⟨counter, type, x⟩ :: locals)

mutual

def execute (locals : Locals) : Statement → Eval Flow
  | .declaration name type (some initializer) _ => do
    let given ← E.evaluate locals initializer
    let type ← E.resolve type
    return .goesOn (⟨name, type, ← .of (demand E.function.symbol given)⟩ :: locals)
  | .declaration name type none _ => do
    let type ← E.resolve type
    return .goesOn (⟨name, type, .number 0⟩ :: locals)
  | .assignment target value _ => return .goesOn (← E.assign locals value target)
  | .increment name _ => return .goesOn (← E.step locals .add name)
  | .decrement name _ => return .goesOn (← E.step locals .subtract name)
  | .expression value _ => do
    let _ ← E.evaluate locals value
    return .goesOn locals
  | .ret (some value) _ => do
    let given ← E.evaluate locals value
    return .returns (Machine.returned (← .of (demand E.function.symbol given)))
  | .ret none _ => return .returns none
  | .conditional condition whenTrue whenFalse _ => do
    if ← E.holds locals condition then Eval.block (executeAll · whenTrue) locals
    else
      match whenFalse with
      | some statements => Eval.block (executeAll · statements) locals
      | none => return .goesOn locals
  | .whileLoop condition body _ =>
    Eval.loop (E.holds · condition) (Eval.block (executeAll · body)) E.fuel locals
  | .forLoop counter type first limit body _ =>
    Eval.block (E.count counter type first limit (executeAll · body)) locals
  | .unknown node => .check (.error (.unhandled node "execute"))

def executeAll (locals : Locals) : List Statement → Eval Flow
  | [] => return .goesOn locals
  | statement :: rest => do
    match ← execute locals statement with
    | .goesOn locals => executeAll locals rest
    | .returns value => return .returns value

end

/-! ## Functions -/

def enter : List Parameter → List Value → Locals → Eval Locals
  | p :: parameters, value :: values, locals => do
    let type ← E.resolve p.type
    enter parameters values (⟨p.name, type, value⟩ :: locals)
  | _, _, locals => return locals

/-- What a body that ends so returns. Only a function that returns nothing may come to the end of its body. -/
def finish (returnType : Ty) : Flow → Eval (Option Value)
  | .returns value => return value
  | .goesOn _ => do
    if returnType = .void then return none
    throw (.stopped (.failure (.ranPast (← .check E.function.symbol.text))))

def run (values : List Value) : Eval (Option Value) := do
  let f := E.function
  let expected := f.declaration.parameters.length
  if values.length ≠ expected then
    throw (.stopped (.failure (.wrongArity (← .check f.symbol.text) expected values.length)))
  let returnType ← E.resolve f.declaration.returnType
  let locals ← E.enter f.declaration.parameters values []
  E.finish returnType (← E.executeAll locals f.declaration.body)

end Evaluator

def Module.call (module : Module) (strict : Bool) (strings : List String) :
    Nat → Function → List Value → Eval (Option Value)
  | 0, _, _ => throw .exhausted
  | fuel + 1, function, values =>
    Evaluator.run { module, strings, function, fuel, strict, call := module.call strict strings fuel } values

end Retarget.Source
