import Retarget.Number.Decimal

/-!
# Powers of two with a fractional exponent

`exp2 x` is `2 ^ x` as double-precision arithmetic computes it: the exponent is split into a whole number
and a rest of at most one half, and the power of the rest is a rational approximation of the exponential
function. The result can be a unit in the last place off, so every rounding step is part of the rule.
-/
namespace Retarget.Number

/-- The natural logarithm of two, whole and as a 21-bit head with its tail. -/
def logTwo : Number := (Decimal.mk 693147180559945286227 (-21)).toNumber
def logTwoHead : Number := (Decimal.mk 693147182464599609375 (-21)).toNumber
def logTwoTail : Number := neg (Decimal.mk 190465429995776804525 (-29)).toNumber

/-- Coefficients of the approximation, from the highest power down. -/
def expCoefficients : List Number :=
  [(Decimal.mk 413813679705723846039 (-28)).toNumber,
   neg (Decimal.mk 165339022054652515390 (-26)).toNumber,
   (Decimal.mk 661375632143793436117 (-25)).toNumber,
   neg (Decimal.mk 277777777770155933842 (-23)).toNumber,
   (Decimal.mk 166666666666666019037 (-21)).toNumber]

/-- `2 ^ (head + tail)` for a sum of at most one half in size. -/
def fractionPower (head tail : Number) : Number :=
  let t := (add tail head).leading
  let u := mul t logTwoHead
  let v := add (mul (sub tail (sub t head)) logTwo) (mul t logTwoTail)
  let z := add u v
  let w := sub v (sub z u)
  let square := mul z z
  let series := expCoefficients.foldl (fun sum c => add c (mul square sum)) 0
  let t1 := sub z (mul square series)
  let r := div (mul z t1) (sub (sub t1 2) (add w (mul z w)))
  sub 1 (sub r z)

def rootTwo : Number := (Decimal.mk 14142135623730951 (-16)).toNumber

/-- The whole number nearest to a number of more than one half in size, a half going away from zero;
otherwise zero. -/
def nearestPower (x : Number) : Int :=
  let half := Number.dyadic 1 1
  if lt half x then (add x half).toInt?.getD 0
  else if lt x (neg half) then (sub x half).toInt?.getD 0
  else 0

/-- `2 ^ x`: exact for whole numbers, the correctly rounded root for one half, an infinity from
`2 ^ 1024` on, and zero where even the least positive number is more than twice too great. -/
def exp2 (x : Number) : Number :=
  match x with
  | .dyadic a k =>
    if le 1024 x then .infinite false
    else if le x (ofInt (-1075)) then 0
    else if k = 0 then scaleBy a 1
    else if a = 1 ∧ k = 1 then rootTwo
    else
      let head := x.leading
      let whole := head.nearestPower
      scaleBy whole (fractionPower (sub head (ofInt whole)) (sub x head))
  | .infinite negative => if negative then 0 else .infinite false
  | .nan => .nan

end Retarget.Number
