import Retarget.Source
import Retarget.Ty.Basic

/-!
# Compile errors

What a program can be refused for. Compile errors are results, collected over the functions of a
module; faults are not among them.
-/
namespace Retarget

inductive Feature where
  | smc
  | integer32
  | fixedPoint
  | pointers
deriving DecidableEq, Repr

namespace Feature

def all : List Feature := [.smc, .integer32, .fixedPoint, .pointers]

def name : Feature → String
  | .smc => "smc"
  | .integer32 => "integer32"
  | .fixedPoint => "fixedPoint"
  | .pointers => "pointers"

end Feature

inductive Diagnostic where
  /-- The source asks for something that no instruction does. -/
  | unsupportedOperation (function construct : String) (site : Option Source.Location)
  | nonTerminatingInstantiation (template : String) (typeArguments : List Ty) (reason : String)
  | missingCapability (function target feature : String)
  /-- A function that patches its own code can be entered again before it returns. -/
  | conventionConflict (function : String) (cycle : List String)
  | emitterInternal (function target message : String)
  /-- An error of no known kind, as JSON text. -/
  | unknown (node : String)
deriving DecidableEq, Repr

namespace Diagnostic

def siteText : Option Source.Location → String
  | some site => s!" at line {site.line.text}, column {site.column.text}"
  | none => ""

def text : Diagnostic → Checked String
  | .unsupportedOperation function construct site =>
    .ok s!"Unsupported operation in {function}{siteText site}: {construct}"
  | .nonTerminatingInstantiation template typeArguments reason => do
    let list ← Ty.listText typeArguments
    return s!"Instantiating {template}<{list}> does not terminate: {reason}"
  | .missingCapability function target feature =>
    .ok s!"{function} needs {feature}, which target {target} does not support"
  | .conventionConflict function cycle =>
    let path := Text.join " -> " cycle
    .ok (s!"{function} uses the SMC calling convention but is recursive ({path}) "
      ++ "and could not be converted to a loop")
  | .emitterInternal function target message =>
    .ok s!"Could not emit {function} for {target}: {message}"
  | .unknown node => .error (.unhandled node "CompileError toString")

def isFatal : Diagnostic → Bool
  | .nonTerminatingInstantiation .. => true
  | _ => false

end Diagnostic

/-- A result, or the errors that a program was refused for. -/
abbrev Outcome (α : Type) := Except (List Diagnostic) α

def Outcome.collect {α : Type} : List (Except Diagnostic α) → Outcome (List α)
  | [] => .ok []
  | .ok value :: rest => (collect rest).map (value :: ·)
  | .error diagnostic :: rest =>
    match collect rest with
    | .ok _ => .error [diagnostic]
    | .error more => .error (diagnostic :: more)

end Retarget
