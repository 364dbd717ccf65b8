import Retarget.Number

/-!
# Inherited entries

A table of words answers to some names that it does not list, because every table inherits them. What it
answers is not a word but a built-in routine, or the bare table at the root of all others. Such an answer
has a text, so it can end up in what is printed, and it has room for as many cells as the routine has
parameters, so it can be taken for a block of memory.
-/
namespace Retarget

structure Inherited where
  name : String
  /-- The routine that stands there and the number of its parameters; none at the root. -/
  routine : Option (String × Nat)
deriving DecidableEq, Repr, Inhabited

namespace Inherited

def all : List Inherited := [
  ⟨"constructor", some ("Object", 1)⟩,
  ⟨"hasOwnProperty", some ("hasOwnProperty", 1)⟩,
  ⟨"isPrototypeOf", some ("isPrototypeOf", 1)⟩,
  ⟨"propertyIsEnumerable", some ("propertyIsEnumerable", 1)⟩,
  ⟨"toLocaleString", some ("toLocaleString", 0)⟩,
  ⟨"toString", some ("toString", 0)⟩,
  ⟨"valueOf", some ("valueOf", 0)⟩,
  ⟨"__defineGetter__", some ("__defineGetter__", 2)⟩,
  ⟨"__defineSetter__", some ("__defineSetter__", 2)⟩,
  ⟨"__lookupGetter__", some ("__lookupGetter__", 1)⟩,
  ⟨"__lookupSetter__", some ("__lookupSetter__", 1)⟩,
  ⟨"__proto__", none⟩]

def find? (name : String) : Option Inherited := all.find? (·.name == name)

def text (entry : Inherited) : String :=
  match entry.routine with
  | some (routine, _) => "function " ++ routine ++ "() \x7b [native code] \x7d"
  | none => "[object Object]"

/-- The entry quoted as JSON; there is no document of a routine. -/
def json (entry : Inherited) : String :=
  match entry.routine with
  | some _ => "undefined"
  | none => "\x7b\x7d"

/-- How many cells the entry has room for; the root sets no bound. -/
def room (entry : Inherited) : Number :=
  match entry.routine with
  | some (_, parameters) => .ofNat parameters
  | none => .infinite false

end Inherited

end Retarget
