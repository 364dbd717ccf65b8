import Retarget.Json
import Retarget.Numeral

/-!
# Reading documents

Programs are exchanged as JSON documents. Reading one finds out whether it has the shape that is expected,
and says what is missing if not.
-/
namespace Retarget

inductive Unreadable where
  | missing (member : String)
  | expected (what : String)
  | tooDeep
deriving DecidableEq, Repr

def Unreadable.message : Unreadable → String
  | .missing member => s!"no member {member}"
  | .expected what => s!"expected {what}"
  | .tooDeep => "nested too deeply"

abbrev Read := Except Unreadable

namespace Json

mutual

def depth : Json → Nat
  | .array items => depthItems items + 1
  | .object members => depthMembers members + 1
  | _ => 0

def depthItems : List Json → Nat
  | [] => 0
  | item :: rest => max (depth item) (depthItems rest)

def depthMembers : List (String × Json) → Nat
  | [] => 0
  | (_, value) :: rest => max (depth value) (depthMembers rest)

end

/-! ## Plain values -/

def asString : Json → Read String
  | .string s => .ok s
  | _ => .error (.expected "a text")

def asNumber : Json → Read Number
  | .number n => .ok n
  | .minusZero => .ok 0
  | _ => .error (.expected "a number")

def asNatural (j : Json) : Read Nat := do
  match (← j.asNumber).toIndex? with
  | some n => return n
  | none => throw (.expected "a natural number")

def asBool : Json → Read Bool
  | .bool b => .ok b
  | _ => .error (.expected "a truth value")

def asList {α : Type} (read : Json → Read α) : Json → Read (List α)
  | .array items => items.mapM read
  | _ => .error (.expected "a list")

/-! ## Members -/

/-- A member that has to be there. -/
def get {α : Type} (j : Json) (name : String) (read : Json → Read α) : Read α :=
  match j.member? name with
  | some value => read value
  | none => .error (.missing name)

/-- A member that may be absent or null. -/
def get? {α : Type} (j : Json) (name : String) (read : Json → Read α) : Read (Option α) :=
  match j.member? name with
  | none | some .null => .ok none
  | some value => some <$> read value

def getList {α : Type} (j : Json) (name : String) (read : Json → Read α) : Read (List α) :=
  return (← j.get? name (asList read)).getD []

def getFlag (j : Json) (name : String) : Bool :=
  match j.member? name with
  | some (.bool value) => value
  | _ => false

def getString (j : Json) (name : String) : Read String := j.get name asString

def getNumber (j : Json) (name : String) : Read Number := j.get name asNumber

def getNatural (j : Json) (name : String) : Read Nat := j.get name asNatural

def getNumeral (j : Json) (name : String) : Read Numeral := return .ofNumber (← j.getNumber name)

/-- A numeral that keeps the sign of zero. -/
def getSignedNumeral (j : Json) (name : String) : Read Numeral :=
  match j.member? name with
  | some .minusZero => .ok .minusZero
  | _ => j.getNumeral name

def kind (j : Json) : String :=
  match j.member? "kind" with
  | some (.string kind) => kind
  | _ => ""

end Json

end Retarget
