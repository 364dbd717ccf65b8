import Retarget.Code.Program
import Retarget.Document.Ty
import Retarget.Run.Value

/-!
# Intermediate code in documents

Programs in intermediate code, as tools exchange them. An instruction of no known kind is kept as its
text.
-/
namespace Retarget

def Register.read (j : Json) : Read Register := return ⟨← j.getNumeral "id", ← Ty.get j "type"⟩

def Symbol.read (j : Json) : Read Symbol := do
  return ⟨← j.getString "module", ← j.getString "name", ← Ty.getList j "mangling"⟩

def DataSymbol.read (j : Json) : Read DataSymbol := do
  match j.kind with
  | "global" => return .global (← j.getString "module") (← j.getString "name")
  | _ => return .literal (← j.getNumeral "index")

def CallTarget.read (j : Json) : Read CallTarget := do
  match j.kind with
  | "runtime" => return .routine (.ofName (← j.getString "name"))
  | _ => return .function (← j.get "symbol" Symbol.read)

def Operation.read (j : Json) : Read Operation := do
  let register (name : String) : Read Register := j.get name Register.read
  match j.kind with
  | "loadImmediate" => return .loadImmediate (← j.getNumber "value") (← register "destination")
  | "move" => return .move (← register "from") (← register "to")
  | "binaryOperation" =>
    return .binary (.ofName (← j.getString "operator")) (← register "lhs") (← register "rhs")
      (← register "destination")
  | "compare" =>
    return .compare (.ofText (← j.getString "comparison")) (← register "lhs") (← register "rhs")
      (← register "destination")
  | "testZero" => return .testZero (← register "source") (j.getFlag "negated") (← register "destination")
  | "convert" => return .convert (← register "from") (← register "to")
  | "increment" => return .step .increment (← register "register")
  | "decrement" => return .step .decrement (← register "register")
  | "label" => return .label (← j.getString "name")
  | "goto" => return .goto (← j.getString "label")
  | "gotoIfFalse" => return .gotoIfFalse (← register "condition") (← j.getString "label")
  | "call" =>
    return .call (← j.get "target" CallTarget.read) (← j.getList "arguments" Register.read)
      (← j.get? "destination" Register.read)
  | "return" => return .ret (← j.get? "register" Register.read)
  | "addressOf" => return .addressOf (← j.get "symbol" DataSymbol.read) (← register "destination")
  | "arrayIndex" => return .arrayIndex (← register "base") (← register "index") (← register "destination")
  | "load" => return .load (← register "address") (← register "destination")
  | "store" => return .store (← register "address") (← register "value")
  | _ => return .unknown j.compact

def Instruction.whyOf (j : Json) : String :=
  match j.member? "why" with
  | some (.string why) => why
  | _ => ""

def Instruction.read (j : Json) : Read Instruction := return ⟨← Operation.read j, whyOf j⟩

def Parameter.read (j : Json) : Read Parameter := do
  return ⟨← j.getString "name", ← j.get "register" Register.read⟩

def LocalVariable.read (j : Json) : Read LocalVariable := do
  return ⟨← j.getString "name", ← Ty.get j "type", ← j.get "register" Register.read⟩

def Convention.of (j : Json) : Convention :=
  match j.member? "convention" with
  | some (.string "smc") => .smc
  | _ => .standard

def Procedure.read (j : Json) : Read Procedure := do
  return {
    symbol := ← j.get "symbol" Symbol.read
    parameters := ← j.getList "parameters" Parameter.read
    returnType := ← Ty.get j "returnType"
    locals := ← j.getList "locals" LocalVariable.read
    registers := ← j.getList "registers" Register.read
    instructions := ← j.getList "instructions" Instruction.read
    smcRequested := j.getFlag "smcRequested"
    isTailRecursive := j.getFlag "isTailRecursive"
    convention := Convention.of j }

def Initializer.read : Json → Read Initializer
  | .array items => do return .list (← items.mapM Json.asNumber)
  | j => do return .scalar (← j.asNumber)

def GlobalVariable.read (j : Json) : Read GlobalVariable := do
  return ⟨← j.getString "module", ← j.getString "name", ← Ty.get j "type",
    ← j.get? "initializer" Initializer.read⟩

def StringLiteral.read (j : Json) : Read StringLiteral := do
  return ⟨← j.getNumeral "index", ← j.getString "value"⟩

def Program.read (j : Json) : Read Program := do
  return {
    module := ← j.getString "module"
    procedures := ← j.getList "functions" Procedure.read
    globals := ← j.getList "globals" GlobalVariable.read
    literals := ← j.getList "stringLiterals" StringLiteral.read }

def Value.read (j : Json) : Read Value := do
  match j with
  | .null => return .null
  | .object _ => return .pointer (← j.getString "block") (← j.getNumber "offset")
  | j => return .number (← j.asNumber)

end Retarget
