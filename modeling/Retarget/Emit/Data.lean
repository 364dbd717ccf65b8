import Retarget.Code.Program
import Retarget.Number.Power
import Retarget.Ty.Width

/-!
# Bytes and names that emitters share

How values become bytes, how initial data is laid out, and the names of the support routines that stand
in for missing instructions.
-/
namespace Retarget

/-- The lowest digits of a number to base 256, least first. -/
def byteDigits : Nat → Number → List Number
  | 0, _ => []
  | count + 1, value => value.rem 256 :: byteDigits count (value.scaleBy (-8)).floor

/-- The bytes of a value in two's complement, least first. From 128 bytes on there is no number that counts
the values, so the bytes are none either. -/
def bytesOf (value bytes : Number) : List Number :=
  let modulus := (bytes.mul 8).exp2
  let rest := ((value.trunc.rem modulus).add modulus).rem modulus
  byteDigits bytes.below rest

/-- Bytes taken together in pairs, low byte first; a single last byte is a word by itself, and so is one
whose partner is no number. -/
def wordsOf : List Number → List Number
  | [] => []
  | [low] => [low]
  | low :: high :: rest => low.add (if high = .nan then 0 else high.mul 256) :: wordsOf rest

def valueWords (value bytes : Number) : List Number := wordsOf (bytesOf value bytes)

def operands (values : List Number) : String := Text.join "," (values.map Number.text)

/-- The names that an assembler has for bytes, words and free space. -/
structure DataDirectives where
  byte : String
  word : String
  space : String

/-- The values of a global variable's cells: missing elements of an array are zero. -/
def initialValues (type : Ty) (initializer : Initializer) : List Number :=
  match type with
  | .array _ length => initializer.values ++ List.replicate (length.value.below - initializer.values.length) 0
  | _ => initializer.values

def Ty.element : Ty → Ty
  | .array of _ => of
  | type => type

/-- The directive that lays out a global variable on a machine with the low byte first. -/
def littleEndianData (type : Ty) (initializer : Option Initializer) (pointerBits : Number)
    (directives : DataDirectives) : Checked String := do
  let size ← type.sizeInBytes pointerBits
  match initializer with
  | none => return directives.space ++ " " ++ size.text
  | some initializer =>
    let values := initialValues type initializer
    let elementSize ← type.element.sizeInBytes pointerBits
    if elementSize = 1 then
      return directives.byte ++ " " ++ operands (values.flatMap fun v => bytesOf v 1)
    else
      return directives.word ++ " " ++ operands (values.flatMap fun v => valueWords v elementSize)

/-- The low bytes of a literal's characters; of a character of two units, the low byte of the first. -/
def StringLiteral.bytes (s : StringLiteral) : List Nat :=
  (Text.firstUnits s.value).map fun unit => unit.toNat % 256

def StringLiteral.byteOperands (s : StringLiteral) : String := operands (s.bytes.map Number.ofNat)

/-! ## Names of support routines -/

/-- A type in the name of a support routine: all pointers are alike. -/
def Ty.routineName : Ty → Checked String
  | .pointer _ => .ok "ptr"
  | type => type.shortName

/-- The routine that does an operation on values of a type, such as `__multiply_u16`. -/
def routineFor (operation : String) (type : Ty) : Checked String := do
  return "__" ++ operation ++ "_" ++ (← type.routineName)

def conversionRoutine (source target : Ty) : Checked String := do
  return "__convert_" ++ (← source.routineName) ++ "_" ++ (← target.routineName)

def isBitPreserving : Ty → Ty → Bool
  | .pointer _, .pointer _ => true
  | .integer a _, .integer b _ => Ty.integerStorage a == Ty.integerStorage b && b != 24
  | _, _ => false

end Retarget
