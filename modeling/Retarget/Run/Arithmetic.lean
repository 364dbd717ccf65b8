import Retarget.Number.Power
import Retarget.Operator
import Retarget.Run.Value
import Retarget.Ty.Width

/-!
# Arithmetic of a run

Binary operations, comparisons and conversions at a type. Results wrap around at the type's width, and
fixed-point numbers are kept scaled by a power of two.
-/
namespace Retarget

/-- The shift count, if it is one for a width. -/
def shiftCount? (bits : Nat) (count : Number) : Option Number :=
  if count.lt 0 || (Number.ofNat bits).le count then none else some count

def evaluateBinary (operator : Operator) (type : Ty) (lhs rhs : Number) : Except Stop Number := do
  let some bits ← type.valueBits.step
    | throw (.fault (.arithmeticOnPointerType (← type.text.step)))
  let scale := Number.twoPow type.shift
  let wrap (value : Number) : Except Stop Number := (type.wrap value).step
  match operator with
  | .add => wrap (lhs.add rhs)
  | .subtract => wrap (lhs.sub rhs)
  | .multiply =>
    match type with
    | .fixed _ => wrap ((lhs.mul rhs).div scale).floor
    | _ => wrap (if bits = 32 then lhs.wordMul rhs else lhs.mul rhs)
  | .divide =>
    if rhs.isZero then throw (.failure .divisionByZero)
    wrap ((lhs.mul scale).div rhs).trunc
  | .modulo =>
    if rhs.isZero then throw (.failure .divisionByZero)
    wrap (lhs.rem rhs)
  | .and => wrap (lhs.wordAnd rhs)
  | .or => wrap (lhs.wordOr rhs)
  | .xor => wrap (lhs.wordXor rhs)
  | .shiftLeft =>
    match shiftCount? bits rhs with
    | none => return 0
    | some count => wrap (lhs.mul count.exp2)
  | .shiftRight =>
    match shiftCount? bits rhs with
    | none => return if (← type.isSigned.step) && lhs.lt 0 then .ofInt (-1) else 0
    | some count => wrap (lhs.div count.exp2).floor
  | .inherited _ | .other _ =>
    throw (.fault (.unhandled operator.json "evaluateBinaryOperation"))

/-- Whether two pointers lead to the same place; a number and a pointer never do. -/
def samePlace : Value → Value → Bool
  | .pointer block offset, .pointer block' offset' => block == block' && offset.eq offset'
  | _, _ => false

/-- Whether a comparison of two values holds. Pointers have no order. -/
def evaluateComparison (comparison : Comparison) (lhs rhs : Value) : Except Stop Bool :=
  match lhs, rhs with
  | .number a, .number b =>
    match comparison with
    | .eq => .ok (a.eq b)
    | .ne => .ok (!a.eq b)
    | .lt => .ok (a.lt b)
    | .le => .ok (a.le b)
    | .gt => .ok (b.lt a)
    | .ge => .ok (b.le a)
    | .other _ => .error (.fault (comparison.unhandled "evaluateComparison"))
  | _, _ =>
    match comparison with
    | .eq => .ok (samePlace lhs rhs)
    | .ne => .ok (!samePlace lhs rhs)
    | _ => .error (.failure (.pointerOrdering comparison.text))

/-- A number of one type as a number of another: the point moves, digits below it are cut off downwards,
and the result wraps around. -/
def evaluateConversion (value : Number) (source target : Ty) : Checked Number := do
  if target = .boolean then return if value.isZero then 0 else 1
  if target.isPointer || source.isPointer then throw .conversionOfPointer
  if source.shift ≤ target.shift then
    target.wrap (value.mul (.twoPow (target.shift - source.shift)))
  else
    target.wrap (value.div (.twoPow (source.shift - target.shift))).floor

end Retarget
