import Retarget.Document.Read
import Retarget.Ty.Basic

/-!
# Types in documents

A type is an object with a `kind`. One that cannot be read is kept as a type of no known kind.
-/
namespace Retarget.Ty

/-- The type of a document in which no more than `depth` types are nested. -/
def readWithin : Nat → Json → Read Ty
  | 0, _ => .error .tooDeep
  | depth + 1, j =>
    let inner (name : String) : Read Ty := j.get name fun t =>
      match readWithin depth t with
      | .ok type => .ok type
      | .error _ => .ok (.unknown t)
    match j.kind with
    | "Integer" => return .integer (← j.getNatural "bits") (← j.get "signed" Json.asBool)
    | "FixedPoint" => do
      match Encoding.ofText? (← j.getString "encoding") with
      | some encoding => return .fixed encoding
      | none => throw (.expected "an encoding")
    | "Boolean" => return .boolean
    | "Void" => return .void
    | "String" => return .string
    | "Pointer" => return .pointer (← inner "to")
    | "Array" => return .array (← inner "of") (← j.getSignedNumeral "length")
    | "TypeParameter" => return .parameter (← j.getString "name")
    | _ => .error (.expected "a type")

def ofJson (j : Json) : Ty :=
  match readWithin (j.depth + 1) j with
  | .ok type => type
  | .error _ => .unknown j

def get (j : Json) (name : String) : Read Ty := j.get name fun t => .ok (ofJson t)

def getList (j : Json) (name : String) : Read (List Ty) := j.getList name fun t => .ok (ofJson t)

end Retarget.Ty
