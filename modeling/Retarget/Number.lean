/-!
# Numbers

Every quantity of a program under compilation is a double-precision number. A finite one is kept
exactly, as a dyadic fraction, so that whole numbers below `2 ^ 53` behave as integers do and the
rounding of everything else is written out in one place, `Number.round`. Zero carries no sign: no
operation here and no text of a number can tell its two signs apart.
-/
namespace Retarget

def twoTo (n : Nat) : Nat := Nat.pow 2 n

inductive Number where
  /-- `numerator / 2 ^ scale` in lowest terms: the scale is `0` exactly for whole numbers. -/
  | dyadic (numerator : Int) (scale : Nat)
  | infinite (negative : Bool)
  /-- The result of an operation that has none, such as the remainder of an infinity. -/
  | nan
deriving DecidableEq, Repr, Inhabited

namespace Number

/-- The whole number `n`, for an `n` that needs no rounding. -/
def ofInt (n : Int) : Number := .dyadic n 0

def ofNat (n : Nat) : Number := .dyadic n 0

instance (n : Nat) : OfNat Number n := ⟨.ofNat n⟩

/-! ## Rounding -/

/-- `n / 2 ^ scale` in lowest terms. -/
def reduce (n : Int) : Nat → Number
  | 0 => .dyadic n 0
  | scale + 1 => if n % 2 = 0 then reduce (n / 2) scale else .dyadic n (scale + 1)

/-- The whole number nearest to `n / 2 ^ bits`; of two equally near ones, the even one. -/
def nearest (n : Int) (bits : Nat) : Int :=
  let below := n / twoTo bits
  let rest := 2 * (n % twoTo bits)
  if rest < twoTo bits then below
  else if twoTo bits < rest then below + 1
  else if below % 2 = 0 then below
  else below + 1

/-- The double nearest to `n / 2 ^ scale`: 53 significant bits, none below `2 ^ -1074`, and an
infinity from `2 ^ 1024` on. -/
def round (n : Int) (scale : Nat) : Number :=
  if scale = 0 ∧ n.natAbs ≤ twoTo 53 then .dyadic n 0
  else
    let drop := max (n.natAbs.log2 + 1 - 53) (scale - 1074)
    let kept := nearest n drop
    if drop ≤ scale then reduce kept (scale - drop)
    else
      let whole := kept * twoTo (drop - scale)
      if whole.natAbs < twoTo 1024 then .dyadic whole 0 else .infinite (whole < 0)

/-- The double nearest to `n / d`, for a positive `d`. The quotient is cut off past its 54th bit, and
one more bit records whether anything was lost, which is all that rounding can depend on. -/
def ratio (n : Int) (d : Nat) : Number :=
  let shift := 56 + d.log2 - n.natAbs.log2
  let scaled := n.natAbs * twoTo shift
  let cut := 2 * (scaled / d) + if scaled % d = 0 then 0 else 1
  round (if n < 0 then -(cut : Int) else cut) (shift + 1)

/-! ## Arithmetic -/

def neg : Number → Number
  | .dyadic n k => .dyadic (-n) k
  | .infinite s => .infinite (!s)
  | .nan => .nan

def add : Number → Number → Number
  | .dyadic a k, .dyadic b l =>
    let scale := max k l
    round (a * twoTo (scale - k) + b * twoTo (scale - l)) scale
  | .infinite s, .infinite t => if s = t then .infinite s else .nan
  | .infinite s, .dyadic _ _ => .infinite s
  | .dyadic _ _, .infinite t => .infinite t
  | .nan, _ => .nan
  | _, .nan => .nan

def sub (x y : Number) : Number := add x (neg y)

def mul : Number → Number → Number
  | .dyadic a k, .dyadic b l => round (a * b) (k + l)
  | .infinite s, .infinite t => .infinite (s != t)
  | .infinite s, .dyadic b _ => if b = 0 then .nan else .infinite (s != decide (b < 0))
  | .dyadic a _, .infinite t => if a = 0 then .nan else .infinite (t != decide (a < 0))
  | .nan, _ => .nan
  | _, .nan => .nan

/-- The quotient. Dividing by zero gives an infinity, or nothing for zero by zero. -/
def div : Number → Number → Number
  | .dyadic a k, .dyadic b l =>
    if b = 0 then
      if a = 0 then .nan else .infinite (a < 0)
    else
      let dividend := a * twoTo l
      ratio (if b < 0 then -dividend else dividend) (b.natAbs * twoTo k)
  | .dyadic _ _, .infinite _ => 0
  | .infinite s, .dyadic b _ => .infinite (s != decide (b < 0))
  | .infinite _, .infinite _ => .nan
  | .nan, _ => .nan
  | _, .nan => .nan

/-- The remainder of the division truncated towards zero; it has the dividend's sign. -/
def rem : Number → Number → Number
  | .dyadic a k, .dyadic b l =>
    if b = 0 then .nan
    else
      let scale := max k l
      reduce ((a * twoTo (scale - k)).tmod (b * twoTo (scale - l))) scale
  | .dyadic a k, .infinite _ => .dyadic a k
  | _, _ => .nan

def floor : Number → Number
  | .dyadic a k => .dyadic (a / twoTo k) 0
  | x => x

def trunc : Number → Number
  | .dyadic a k => .dyadic (a.tdiv (twoTo k)) 0
  | x => x

/-- The nearest whole number; of two equally near ones, the greater. -/
def nearestWhole : Number → Number
  | .dyadic a k => .dyadic ((2 * a + twoTo k) / twoTo (k + 1)) 0
  | x => x

/-! ## Order -/

/-- Numeric equality; `nan` equals nothing. -/
def eq : Number → Number → Bool
  | .nan, _ => false
  | x, y => x == y

def lt : Number → Number → Bool
  | .dyadic a k, .dyadic b l =>
    let scale := max k l
    a * twoTo (scale - k) < b * twoTo (scale - l)
  | .dyadic _ _, .infinite t => !t
  | .infinite s, .dyadic _ _ => s
  | .infinite s, .infinite t => s && !t
  | .nan, _ => false
  | _, .nan => false

def le (x y : Number) : Bool := lt x y || eq x y

def isZero (x : Number) : Bool := eq x 0

/-! ## Whole numbers and words -/

def toInt? : Number → Option Int
  | .dyadic a k => some (a.tdiv (twoTo k))
  | _ => none

/-- The position that a number names in a sequence: only a whole number from zero on names one. -/
def toIndex? : Number → Option Nat
  | .dyadic a 0 => if 0 ≤ a then some a.toNat else none
  | _ => none

/-- The whole part modulo `2 ^ bits`, as a word; `0` for a number without a whole part. -/
def word (bits : Nat) (x : Number) : BitVec bits := BitVec.ofInt bits (x.toInt?.getD 0)

/-- A 32-bit word read as a signed number. -/
def ofWord (w : BitVec 32) : Number := ofInt w.toInt

def wordMul (x y : Number) : Number := ofWord (x.word 32 * y.word 32)

def wordAnd (x y : Number) : Number := ofWord (x.word 32 &&& y.word 32)

def wordOr (x y : Number) : Number := ofWord (x.word 32 ||| y.word 32)

def wordXor (x y : Number) : Number := ofWord (x.word 32 ^^^ y.word 32)

/-- How many natural numbers lie below the number. Every finite number is less than `2 ^ 1024`, so that
many stand below an infinity. -/
def below : Number → Nat
  | .dyadic a k => (-(-a / twoTo k)).toNat
  | .infinite negative => if negative then 0 else twoTo 1024
  | .nan => 0

/-- The whole part as a count; a number below one counts nothing. -/
def toCount (x : Number) : Nat := (x.toInt?.getD 0).toNat

/-- The number moved on by `n` places; a whole number moves on without rounding. -/
def advance (x : Number) (n : Nat) : Number :=
  match x with
  | .dyadic a 0 => .dyadic (a + n) 0
  | x => x.add (.ofNat n)

/-! ## Powers of two -/

/-- `2 ^ n`; there is no finite one from `2 ^ 1024` on. -/
def twoPow (n : Nat) : Number := if n < 1024 then .dyadic (twoTo n) 0 else .infinite false

def scaleBy (n : Int) : Number → Number
  | .dyadic a k => if 0 ≤ n then round (a * twoTo n.toNat) k else round a (k + n.natAbs)
  | x => x

/-- The number with its significand cut down to 21 bits. -/
def leading : Number → Number
  | .dyadic a k =>
    let drop := a.natAbs.log2 + 1 - 21
    if drop ≤ k then reduce (a.tdiv (twoTo drop)) (k - drop) else .dyadic (a.tdiv (twoTo drop) * twoTo drop) 0
  | x => x

end Number

end Retarget
