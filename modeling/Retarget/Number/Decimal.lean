import Retarget.Number

/-!
# Decimal texts of numbers

Reading rounds a decimal to the nearest number. Writing gives the fewest digits that read back as the
same number, and of those the digits nearest to it.
-/
namespace Retarget

def tenTo (n : Nat) : Nat := Nat.pow 10 n

/-- The decimal `digits * 10 ^ exponent`. -/
structure Decimal where
  digits : Nat
  exponent : Int
deriving DecidableEq, Repr

namespace Decimal

/-- Decimal exponents past this distance lie beyond every finite number, or below half of the least
positive one. -/
def reach : Nat := 400

def toNumber (d : Decimal) : Number :=
  let length := d.digits.repr.length
  if d.digits = 0 ∨ d.exponent + length < -(reach : Int) then 0
  else if (reach : Int) < d.exponent + length then .infinite false
  else if 0 ≤ d.exponent then .round (d.digits * tenTo d.exponent.toNat) 0
  else .ratio d.digits (tenTo (-d.exponent).toNat)

/-- The number of digits before the point of `n / 2 ^ scale`, for a positive `n`; below one tenth it is
negative and counts the zeros that follow the point. -/
def magnitude (n scale : Nat) : Int :=
  let whole := n / twoTo scale
  if 0 < whole then whole.repr.length
  else
    match (List.range reach).find? fun zeros => twoTo scale ≤ n * tenTo (zeros + 1) with
    | some zeros => -(zeros : Int)
    | none => -(reach : Int)

/-- The multiple of `10 ^ exponent` that reads back as `n / 2 ^ scale`, if there is one; of the two
next to the number, the nearer, and of two equally near ones the even one. -/
def ofGrid? (n scale : Nat) (exponent : Int) : Option Decimal :=
  let dividend := if 0 ≤ exponent then n else n * tenTo (-exponent).toNat
  let divisor := if 0 ≤ exponent then twoTo scale * tenTo exponent.toNat else twoTo scale
  let below := dividend / divisor
  let rest := 2 * (dividend % divisor)
  let readsBack (digits : Nat) : Bool := (Decimal.mk digits exponent).toNumber == .dyadic n scale
  let belowIsNearer := rest < divisor || (rest == divisor && below % 2 == 0)
  let (first, second) := if belowIsNearer then (below, below + 1) else (below + 1, below)
  if readsBack first then some ⟨first, exponent⟩
  else if readsBack second then some ⟨second, exponent⟩
  else none

/-- The shortest decimal that reads back as `n / 2 ^ scale`, for a positive `n`: seventeen digits are
always enough. -/
def shortest (n scale : Nat) : Decimal :=
  let places := magnitude n scale
  ((List.range 17).findSome? fun (more : Nat) => ofGrid? n scale (places - (more + 1))).getD ⟨n, 0⟩

/-- Digits without zeros at their end, and the number of digits before the point. -/
def significant (d : Decimal) : List Char × Int :=
  let digits := d.digits.repr.toList
  ((digits.reverse.dropWhile (· == '0')).reverse, digits.length + d.exponent)

/-- Positional notation for values with at most 21 digits before the point and at most five zeros right
after it, an exponent otherwise. -/
def text (d : Decimal) : String :=
  let (digits, point) := d.significant
  if point ≤ 21 ∧ (digits.length : Int) ≤ point then
    .ofList (digits ++ List.replicate (point.toNat - digits.length) '0')
  else if 0 < point ∧ point ≤ 21 then
    .ofList (digits.take point.toNat ++ '.' :: digits.drop point.toNat)
  else if -6 < point ∧ point ≤ 0 then
    .ofList ('0' :: '.' :: List.replicate (-point).toNat '0' ++ digits)
  else
    let mantissa := match digits with
      | [] => ""
      | [digit] => .ofList [digit]
      | digit :: rest => .ofList (digit :: '.' :: rest)
    let exponent := point - 1
    mantissa ++ (if exponent < 0 then "e-" else "e+") ++ exponent.natAbs.repr

end Decimal

namespace Number

def text : Number → String
  | .dyadic n scale =>
    if scale = 0 ∧ n.natAbs ≤ twoTo 53 then n.repr
    else (if n < 0 then "-" else "") ++ (Decimal.shortest n.natAbs scale).text
  | .infinite negative => if negative then "-Infinity" else "Infinity"
  | .nan => "NaN"

instance : ToString Number := ⟨text⟩

/-- The number in a JSON document, which can hold finite numbers only. -/
def json : Number → String
  | .dyadic n scale => text (.dyadic n scale)
  | .infinite _ | .nan => "null"

end Number

end Retarget
