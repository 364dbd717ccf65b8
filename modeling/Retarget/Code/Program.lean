import Retarget.Code.Instruction

/-!
# Procedures and programs

A procedure is a function in intermediate code. A program holds the procedures of a module in the order
of declaration, then the instances of its generic functions in the order of first request.
-/
namespace Retarget

/-- How arguments reach a procedure: through its frame, or patched into its code. -/
inductive Convention where
  | standard
  | smc
deriving DecidableEq, Repr, Inhabited

def Convention.name : Convention → String
  | .standard => "standard"
  | .smc => "smc"

structure Parameter where
  name : String
  register : Register
deriving DecidableEq, Repr

/-- The home register of a declared variable; of use to a reader only. -/
structure LocalVariable where
  name : String
  type : Ty
  register : Register
deriving DecidableEq, Repr

structure Procedure where
  symbol : Symbol
  parameters : List Parameter
  returnType : Ty
  locals : List LocalVariable
  registers : RegisterTable
  instructions : List Instruction
  smcRequested : Bool
  isTailRecursive : Bool
  convention : Convention
deriving DecidableEq, Repr

namespace Procedure

def isParameterRegister (p : Procedure) (r : Register) : Bool :=
  p.parameters.any (·.register.same r)

def parameterIds (p : Procedure) : List Numeral := p.parameters.map (·.register.id)

/-- The registers of the table that no parameter is bound to. -/
def localRegisters (p : Procedure) : List Register :=
  p.registers.filter fun r => !p.parameterIds.contains r.id

def flagsText (p : Procedure) : String :=
  let flags := (if p.isTailRecursive then ["tail-recursive"] else [])
    ++ (if p.convention = .smc then ["smc"] else [])
  if flags.isEmpty then "" else " [" ++ Text.join ", " flags ++ "]"

def text (p : Procedure) : Checked String := do
  let parameters ← p.parameters.mapM fun q => do return q.name ++ " " ++ (← q.register.typedText)
  let head := "(function) " ++ (← p.symbol.text) ++ "(" ++ Text.join ", " parameters ++ "): "
    ++ (← p.returnType.text) ++ p.flagsText
  return Text.join "\n" (head :: (← p.instructions.mapM Instruction.text))

end Procedure

/-- A value for a scalar, or one for every element of an array. -/
inductive Initializer where
  | scalar (value : Number)
  | list (values : List Number)
deriving DecidableEq, Repr

namespace Initializer

def text : Initializer → String
  | .scalar value => value.json
  | .list values => "[" ++ Text.join "," (values.map Number.json) ++ "]"

def values : Initializer → List Number
  | .scalar value => [value]
  | .list values => values

end Initializer

structure GlobalVariable where
  module : String
  name : String
  type : Ty
  initializer : Option Initializer
deriving DecidableEq, Repr

namespace GlobalVariable

def qualifiedName (g : GlobalVariable) : String := globalName g.module g.name

def text (g : GlobalVariable) : Checked String := do
  let value := match g.initializer with
    | some initializer => " = " ++ initializer.text
    | none => ""
  return "(global) " ++ g.qualifiedName ++ ": " ++ (← g.type.text) ++ value

end GlobalVariable

structure StringLiteral where
  index : Numeral
  value : String
deriving DecidableEq, Repr

namespace StringLiteral

def name (s : StringLiteral) : String := literalName s.index

def text (s : StringLiteral) : String := "(string) " ++ s.name ++ ": " ++ Text.quote s.value

end StringLiteral

structure Program where
  module : String
  procedures : List Procedure
  globals : List GlobalVariable
  literals : List StringLiteral
deriving DecidableEq, Repr

namespace Program

def find? (p : Program) (symbol : Symbol) : Option Procedure :=
  p.procedures.find? (·.symbol = symbol)

def text (p : Program) : Checked String := do
  let literals := p.literals.map StringLiteral.text
  let globals ← p.globals.mapM GlobalVariable.text
  let procedures ← p.procedures.mapM Procedure.text
  return Text.join "\n\n" (literals ++ globals ++ procedures)

end Program

end Retarget
