import Retarget.Number.Decimal

/-!
# Logarithms to the base two

`log2 x` is the logarithm as double-precision arithmetic computes it: the number is split into a power of
two and a factor near one, and the logarithm of the factor is a polynomial in `f / (2 + f)`, where `f` is
what the factor exceeds one by. The result can be a whole number although the number is no power of two,
if it is near enough to one, so every rounding step is part of the rule.
-/
namespace Retarget.Number

/-- The inverse of the natural logarithm of two, as a 21-bit head and its tail. -/
def inverseLogTwoHead : Number := (Decimal.mk 144269504072144627571 (-20)).toNumber
def inverseLogTwoTail : Number := (Decimal.mk 167517131648865118353 (-30)).toNumber

/-- Coefficients of the polynomial at odd and at even places, from the highest power down. -/
def logOddCoefficients : List Number :=
  [(Decimal.mk 1479819860511658591 (-19)).toNumber,
   (Decimal.mk 1818357216161805012 (-19)).toNumber,
   (Decimal.mk 2857142874366239149 (-19)).toNumber,
   (Decimal.mk 6666666666666735130 (-19)).toNumber]
def logEvenCoefficients : List Number :=
  [(Decimal.mk 1531383769920937332 (-19)).toNumber,
   (Decimal.mk 2222219843214978396 (-19)).toNumber,
   (Decimal.mk 3999999999940941908 (-19)).toNumber]

def polynomial (coefficients : List Number) (x : Number) : Number :=
  coefficients.foldl (fun sum c => add c (mul x sum)) 0

/-- What the natural logarithm of `1 + f` exceeds `f - f * f / 2` by. -/
def logRest (f : Number) : Number :=
  let s := div f (add 2 f)
  let z := mul s s
  let w := mul z z
  let even := mul w (polynomial logEvenCoefficients w)
  let odd := mul z (polynomial logOddCoefficients w)
  mul s (add (mul (mul (.dyadic 1 1) f) f) (add odd even))

/-- The logarithm of `(1 + f) * 2 ^ exponent`. -/
def logOfParts (f : Number) (exponent : Int) : Number :=
  let half := mul (mul (.dyadic 1 1) f) f
  let head := (sub f half).leading
  let tail := add (sub (sub f head) half) (logRest f)
  let upper := mul head inverseLogTwoHead
  let lower := add (mul (add tail head) inverseLogTwoTail) (mul tail inverseLogTwoHead)
  let sum := add (ofInt exponent) upper
  add (add lower (add (sub (ofInt exponent) sum) upper)) sum

/-- Factors from here on are halved, so that they lie about as far below one as above it. -/
def halvedFrom : Number := reduce 1482908 20

def log2 : Number → Number
  | .dyadic a k =>
    if a < 0 then .nan
    else if a = 0 then .infinite true
    else
      let bits := a.toNat.log2
      let factor := reduce a bits
      if lt factor halvedFrom then logOfParts (sub factor 1) (bits - k)
      else logOfParts (sub (scaleBy (-1) factor) 1) (bits - k + 1)
  | .infinite negative => if negative then .nan else .infinite false
  | .nan => .nan

end Retarget.Number
