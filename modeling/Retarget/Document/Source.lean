import Retarget.Document.Ty
import Retarget.Source

/-!
# Source trees in documents

Modules as front ends hand them over. A node of no known kind is kept as its text, so that the stage which
meets it can refuse it.
-/
namespace Retarget.Source

def Location.of? (j : Json) : Option Location :=
  match j.member? "sourceLocation" with
  | none => none
  | some site =>
    match site.getNumber "line", site.getNumber "column" with
    | .ok line, .ok column => some ⟨line, column⟩
    | _, _ => none

def Callee.read (j : Json) : Read Callee := do
  match j.kind with
  | "function" => return .function (← j.getString "name")
  | "generic" => return .generic (← j.getString "name") (← Ty.getList j "typeArguments")
  | "runtime" => return .routine (.ofName (← j.getString "name"))
  | _ => return .unknown j.compact

/-- The expression of a document in which no more than `depth` expressions are nested. -/
def Expression.readWithin : Nat → Json → Read Expression
  | 0, _ => .error .tooDeep
  | depth + 1, j => do
    let site := Location.of? j
    let inner (name : String) : Read Expression := j.get name (readWithin depth)
    match j.kind with
    | "number" => return .number (← j.getNumber "value") (← Ty.get j "type") site
    | "boolean" => return .boolean (← j.get "value" Json.asBool) site
    | "string" => return .string (← j.getString "value") site
    | "identifier" => return .identifier (← j.getString "name") (← Ty.get j "type") site
    | "global" => return .global (← j.getString "name") (← Ty.get j "type") site
    | "binaryOperation" =>
      return .binary (← j.getString "operator") (← inner "lhs") (← inner "rhs") (← Ty.get j "type") site
    | "comparison" =>
      return .comparison (.ofText (← j.getString "comparison")) (← inner "lhs") (← inner "rhs") site
    | "not" => return .not (← inner "operand") site
    | "call" =>
      return .call (← j.get "callee" Callee.read) (← j.getList "arguments" (readWithin depth))
        (← Ty.get j "type") site
    | "index" => return .index (← j.getString "array") (← inner "index") (← Ty.get j "type") site
    | "addressOf" => return .addressOf (← j.getString "global") (← Ty.get j "type") site
    | "dereference" => return .dereference (← inner "pointer") (← Ty.get j "type") site
    | "convert" => return .convert (← inner "expression") (← Ty.get j "type") site
    | "ternary" =>
      return .ternary (← inner "condition") (← inner "ifTrue") (← inner "ifFalse") (← Ty.get j "type") site
    | _ => return .unknown j.compact ((j.member? "type").map Ty.ofJson)

def Expression.read (j : Json) : Read Expression := readWithin (j.depth + 1) j

def Assignee.read (j : Json) : Read Assignee := do
  match j.kind with
  | "variable" => return .variable (← j.getString "name")
  | "global" => return .global (← j.getString "name")
  | "index" => return .index (← j.getString "array") (← j.get "index" Expression.read)
  | "dereference" => return .dereference (← j.get "pointer" Expression.read)
  | _ => return .unknown j.compact

/-- The statement of a document in which no more than `depth` statements are nested. -/
def Statement.readWithin : Nat → Json → Read Statement
  | 0, _ => .error .tooDeep
  | depth + 1, j => do
    let site := Location.of? j
    let expression (name : String) : Read Expression := j.get name Expression.read
    let block (name : String) : Read (List Statement) := j.get name (Json.asList (readWithin depth))
    match j.kind with
    | "declaration" =>
      return .declaration (← j.getString "name") (← Ty.get j "type")
        (← j.get? "initializer" Expression.read) site
    | "assignment" =>
      return .assignment (← j.get "target" Assignee.read) (← expression "expression") site
    | "increment" => return .increment (← j.getString "name") site
    | "decrement" => return .decrement (← j.getString "name") site
    | "expression" => return .expression (← expression "expression") site
    | "return" => return .ret (← j.get? "expression" Expression.read) site
    | "if" =>
      return .conditional (← expression "condition") (← block "then")
        (← j.get? "else" (Json.asList (readWithin depth))) site
    | "while" => return .whileLoop (← expression "condition") (← block "body") site
    | "for" =>
      return .forLoop (← j.getString "variable") (← Ty.get j "type") (← expression "from")
        (← expression "to") (← block "body") site
    | _ => return .unknown j.compact

def Statement.read (j : Json) : Read Statement := readWithin (j.depth + 1) j

def Parameter.read (j : Json) : Read Parameter := return ⟨← j.getString "name", ← Ty.get j "type"⟩

def Declaration.read (j : Json) : Read Declaration := do
  return {
    name := ← j.getString "name"
    typeParameters := ← j.getList "typeParameters" Json.asString
    parameters := ← j.getList "parameters" Parameter.read
    returnType := ← Ty.get j "returnType"
    body := ← j.getList "body" Statement.read
    smc := j.getFlag "smc"
    site := Location.of? j }

def GlobalValue.read : Json → Read GlobalValue
  | .bool b => .ok (.boolean b)
  | .array items => do return .list (← items.mapM Json.asNumber)
  | j => do return .number (← j.asNumber)

def GlobalDeclaration.read (j : Json) : Read GlobalDeclaration := do
  return ⟨← j.getString "name", ← Ty.get j "type", ← j.get? "initializer" GlobalValue.read⟩

def Module.read (j : Json) : Read Module := do
  return {
    name := ← j.getString "name"
    functions := ← j.getList "functions" Declaration.read
    globals := ← j.getList "globals" GlobalDeclaration.read }

end Retarget.Source
