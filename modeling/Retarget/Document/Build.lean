import Retarget.Document.Read

/-!
# Nodes built from documents

Source trees can be put together by hand from parts that are documents themselves. A part is taken as it
is, whatever it is; one that is left out leaves its member out.
-/
namespace Retarget.Json

def node (kind : String) (members : List (String × Option Json)) : Json :=
  .object (("kind", .string kind) :: members.filterMap fun (name, value) => value.map (name, ·))

/-- The type that an expression has: some kinds always have the same, the others say theirs. -/
def staticType? (expression : Json) : Option Json :=
  match expression.kind with
  | "boolean" | "comparison" | "not" => some (node "Boolean" [])
  | "string" => some (node "Pointer" [("to", some (node "String" []))])
  | _ => expression.member? "type"

def callOf (callee : Json) (arguments type : Option Json) : Json :=
  node "call" [("callee", some callee), ("arguments", arguments), ("type", type)]

def build? (constructor : String) (parts : List Json) : Option Json :=
  let part (i : Nat) : Option Json := parts[i]?
  match constructor with
  | "num" => some (node "number" [("value", part 0), ("type", part 1)])
  | "bool" => some (node "boolean" [("value", part 0)])
  | "str" => some (node "string" [("value", part 0)])
  | "id" => some (node "identifier" [("name", part 0), ("type", part 1)])
  | "global" => some (node "global" [("name", part 0), ("type", part 1)])
  | "binary" =>
    some (node "binaryOperation" [("operator", part 0), ("lhs", part 1), ("rhs", part 2),
      ("type", (part 1).bind staticType?)])
  | "compare" => some (node "comparison" [("comparison", part 0), ("lhs", part 1), ("rhs", part 2)])
  | "call" => some (callOf (node "function" [("name", part 0)]) (part 1) (part 2))
  | "callGeneric" =>
    some (callOf (node "generic" [("name", part 0), ("typeArguments", part 1)]) (part 2) (part 3))
  | "callRuntime" =>
    let call := callOf (node "runtime" [("name", part 0)]) (part 1) (some (node "Void" []))
    some (node "expression" [("expression", some call)])
  | "convert" => some (node "convert" [("expression", part 0), ("type", part 1)])
  | "ret" => some (node "return" [("expression", part 0)])
  | "assign" =>
    some (node "assignment" [("target", some (node "variable" [("name", part 0)])), ("expression", part 1)])
  | "local" => some (node "declaration" [("name", part 0), ("type", part 1), ("initializer", part 2)])
  | "ifThen" => some (node "if" [("condition", part 0), ("then", part 1), ("else", part 2)])
  | _ => none

def buildType? (constructor : String) (parts : List Json) : Option Json :=
  let part (i : Nat) : Option Json := parts[i]?
  match constructor with
  | "fixed" => some (node "FixedPoint" [("encoding", part 0)])
  | "pointerTo" => some (node "Pointer" [("to", part 0)])
  | "arrayOf" => some (node "Array" [("of", part 0), ("length", part 1)])
  | "typeParameter" => some (node "TypeParameter" [("name", part 0)])
  | _ => none

end Retarget.Json
