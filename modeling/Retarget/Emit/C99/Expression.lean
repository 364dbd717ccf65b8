import Retarget.Code.Program
import Retarget.Ty.Width

/-!
# C expressions

Arithmetic is done without a sign in 32 bits, or with one in 64, and cast back to the type of the result,
which wraps it around at the width of that type.
-/
namespace Retarget.C99

/-- The C type of a value. A pointer to an array points to its first element. -/
def typeText : Ty → Checked String
  | .integer bits signed => (Ty.integer bits signed).shortName
  | .fixed encoding => .ok encoding.shortName
  | .boolean => .ok "u8"
  | .void => .ok "void"
  | .string => .ok "String"
  | .pointer (.array of _) => do return (← typeText of) ++ " *"
  | .pointer .string => .ok "const String *"
  | .pointer inner => do return (← typeText inner) ++ " *"
  | .array _ _ => .error .arrayHasNoValueType
  | .parameter name => .error (.unsubstituted name)
  | .unknown node => .error (.unhandled node.compact "cType")

/-- An expression cast to a type, wrapped around at its width. -/
def wrapTo (type : Ty) (expression : String) : Checked String := do
  match type with
  | .boolean => return s!"(u8)(({expression}) != 0)"
  | .pointer _ => return "(" ++ (← typeText type) ++ ")(" ++ expression ++ ")"
  | _ =>
    if (← type.valueBits) = some 24 then
      if ← type.isSigned then return s!"WRAP_I24({expression})" else return s!"WRAP_U24({expression})"
    else return "(" ++ (← typeText type) ++ ")(" ++ expression ++ ")"

def unsignedSign? (operator : Operator) : Option String :=
  match operator with
  | .add => some "+"
  | .subtract => some "-"
  | .multiply => some "*"
  | .and => some "&"
  | .or => some "|"
  | .xor => some "^"
  | _ => operator.stray?

/-- A division. The least number of 32 bits divided by minus one does not fit, so it is negated without
a sign. -/
def divide (type : Ty) (bits : Nat) (lhs rhs : String) : Checked String := do
  let signed ← type.isSigned
  if signed && bits = 32 then
    let negated ← wrapTo type s!"0u - (u32){lhs}"
    let quotient ← wrapTo type s!"{lhs} / {rhs}"
    return s!"{rhs} == -1 ? {negated} : {quotient}"
  else wrapTo type s!"{lhs} / {rhs}"

def modulo (type : Ty) (bits : Nat) (lhs rhs : String) : Checked String := do
  let signed ← type.isSigned
  let rest ← wrapTo type s!"{lhs} % {rhs}"
  return if signed && bits = 32 then s!"{rhs} == -1 ? 0 : {rest}" else rest

def signedOperation (operator : Operator) (type : Ty) (bits : Nat) (lhs rhs : String) :
    Checked String := do
  match operator with
  | .divide => divide type bits lhs rhs
  | .modulo => modulo type bits lhs rhs
  | .shiftLeft =>
    let shifted ← wrapTo type s!"(u32){lhs} << {rhs}"
    return s!"(u32){rhs} >= {bits} ? 0 : {shifted}"
  | .shiftRight =>
    let outOfRange := if ← type.isSigned then s!"({lhs} < 0 ? -1 : 0)" else "0"
    let shifted ← wrapTo type s!"{lhs} >> {rhs}"
    return s!"(u32){rhs} >= {bits} ? {outOfRange} : {shifted}"
  | _ => throw (.operatorNotHandled operator.name)

def binaryOperation (operator : Operator) (type : Ty) (lhs rhs : String) : Checked String := do
  match ← type.valueBits with
  | none => throw .arithmeticOnPointer
  | some bits =>
    match type, operator with
    | .fixed encoding, .multiply => wrapTo type s!"((int64_t){lhs} * {rhs}) >> {encoding.shift}"
    | .fixed encoding, .divide => wrapTo type s!"((int64_t){lhs} * {twoTo encoding.shift}) / {rhs}"
    | _, _ =>
      match unsignedSign? operator with
      | some sign => wrapTo type s!"(u32){lhs} {sign} (u32){rhs}"
      | none => signedOperation operator type bits lhs rhs

/-- A conversion; shifting to the right rounds down. -/
def conversion (source target : Ty) (value : String) : Checked String := do
  if target = .boolean then return s!"({value} != 0)"
  if target.isPointer || source.isPointer then return "(" ++ (← typeText target) ++ ")" ++ value
  if source.shift < target.shift then
    wrapTo target s!"(int64_t){value} * {twoTo (target.shift - source.shift)}"
  else if target.shift < source.shift then
    wrapTo target s!"(int64_t){value} >> {source.shift - target.shift}"
  else wrapTo target value

end Retarget.C99
