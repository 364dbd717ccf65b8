import Retarget.Json.Reader
import Retarget.Target

/-!
# Compile options

Options are given as a JSON document that names only what differs from the defaults. Resolving lays it
over the defaults; reading takes the resolved document as settings.
-/
namespace Retarget

inductive SmcPolicy where
  | annotated
  | all
  | none
deriving DecidableEq, Repr

/-- A bound as it was set. -/
structure Bound where
  /-- The most that the bound allows; what is not a number bounds nothing. -/
  value : Number
  text : String
deriving DecidableEq, Repr

def Bound.ofNumber (value : Number) : Bound := ⟨value, value.text⟩

structure InstantiationLimits where
  /-- The deepest nesting of pointers and arrays in a type argument. -/
  maxTypeDepth : Bound
  maxInstancesPerTemplate : Bound
deriving DecidableEq, Repr

/-- How many instances of one template the limits allow; without a bound, more than there can be. -/
def InstantiationLimits.instances (limits : InstantiationLimits) : Nat :=
  match limits.maxInstancesPerTemplate.value with
  | .nan => twoTo 1024
  | most => most.below

structure Passes where
  peephole : Bool
  tailCalls : Bool
deriving DecidableEq, Repr

structure Options where
  target : Json
  passes : Passes
  smc : SmcPolicy
  limits : InstantiationLimits
  comments : Bool
deriving Repr

namespace Options

def defaults : Json :=
  .object [
    ("target", .string "c99"),
    ("optimize", .object [("peephole", .bool true), ("tailCalls", .bool true)]),
    ("smc", .string "annotated"),
    ("instantiation", .object [("maxTypeDepth", .number 8), ("maxInstancesPerTemplate", .number 64)]),
    ("comments", .bool true)]

def resolve (given : Json) : Json := Json.merge defaults given

def isOn : Option Json → Bool
  | some (.bool value) => value
  | some (.number value) => !value.isZero
  | some (.string value) => value != ""
  | some (.array _) | some (.object _) => true
  | some .minusZero | some .null | none => false

/-- The number that a text spells, blanks around it aside. No text at all is zero. -/
def spelled (text : String) : Number :=
  let trimmed := Text.trim text
  if trimmed = "" then 0
  else
    match Json.readNumber trimmed.toList with
    | some (value, []) => value
    | _ => .nan

/-- The bound that a setting gives: a number, a text that spells one, or else a truth value or nothing,
which count as one and zero. -/
def bound : Option Json → Bound
  | some (.number value) => .ofNumber value
  | some .minusZero => .ofNumber 0
  | some (.string text) => ⟨spelled text, text⟩
  | some (.bool true) => ⟨1, "true"⟩
  | some (.bool false) => ⟨0, "false"⟩
  | some .null => ⟨0, "null"⟩
  | some (.array []) => ⟨0, ""⟩
  | _ => .ofNumber .nan

/-- A policy of no known name gives the convention to no function. -/
def policy : Option Json → SmcPolicy
  | some (.string "annotated") => .annotated
  | some (.string "all") => .all
  | _ => .none

def setting (resolved : Json) (group name : String) : Option Json :=
  (resolved.member? group).bind (·.member? name)

def ofResolved (resolved : Json) : Options where
  target := (resolved.member? "target").getD .null
  passes := {
    peephole := isOn (setting resolved "optimize" "peephole")
    tailCalls := isOn (setting resolved "optimize" "tailCalls") }
  smc := policy (resolved.member? "smc")
  limits := {
    maxTypeDepth := bound (setting resolved "instantiation" "maxTypeDepth")
    maxInstancesPerTemplate := bound (setting resolved "instantiation" "maxInstancesPerTemplate") }
  comments := isOn (resolved.member? "comments")

end Options

end Retarget
