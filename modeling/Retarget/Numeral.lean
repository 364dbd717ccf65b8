import Retarget.Number.Decimal

/-!
# Numerals

What is numbered or counted in a program: registers, entries of the string pool, elements of an array. The
compiler itself only ever counts with natural numbers, which are kept as such; a document may put any
other number in their place.
-/
namespace Retarget

inductive Numeral where
  | natural (n : Nat)
  /-- A number that is not natural, or is past those that doubles tell apart from their neighbours. -/
  | other (x : Number)
  /-- Zero behind a minus sign: as a number it is zero, but a length of that many is told apart from zero. -/
  | minusZero
deriving DecidableEq, Repr, Inhabited

namespace Numeral

instance (n : Nat) : OfNat Numeral n := ⟨.natural n⟩

def ofNumber (x : Number) : Numeral :=
  match x.toIndex? with
  | some n => if n ≤ twoTo 53 then .natural n else .other x
  | none => .other x

def value : Numeral → Number
  | .natural n => .ofNat n
  | .other x => x
  | .minusZero => 0

def text : Numeral → String
  | .natural n => n.repr
  | .other x => x.text
  | .minusZero => "0"

instance : ToString Numeral := ⟨text⟩

def add (n : Numeral) (distance : Number) : Numeral := ofNumber (n.value.add distance)

end Numeral

end Retarget
