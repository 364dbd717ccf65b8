import Retarget.Number
import Retarget.Ty.Basic

/-!
# Widths of types

How many bits carry a value, how many it is stored in, and the reduction of a number to the values that
a type can hold. Values of 24 bits are stored in 32. Pointers are as wide as the target makes them.
-/
namespace Retarget.Ty

/-- Bits that carry the value; none for pointers. -/
def valueBits : Ty → Checked (Option Nat)
  | .integer bits _ => .ok (some bits)
  | .fixed encoding => .ok (some encoding.usedBits)
  | .boolean => .ok (some 8)
  | .pointer _ => .ok none
  | type => .error (type.unhandled "valueBits")

/-- Bits of storage that an integer takes. -/
def integerStorage (bits : Nat) : Nat := if bits = 24 then 32 else bits

def storageBits (pointerBits : Number) : Ty → Checked Number
  | .integer bits _ => .ok (.ofNat (integerStorage bits))
  | .fixed encoding => .ok (.ofNat encoding.storageBits)
  | .boolean => .ok 8
  | .pointer _ => .ok pointerBits
  | type => .error (type.unhandled "storageBits")

/-- The bytes that a number of bits takes: an eighth of it, which need not be whole. -/
def bytesFor (bits : Number) : Number := bits.scaleBy (-3)

def storageBytes (pointerBits : Number) (type : Ty) : Checked Number := do
  return bytesFor (← type.storageBits pointerBits)

def isSigned : Ty → Checked Bool
  | .integer _ signed => .ok signed
  | .fixed _ => .ok true
  | .boolean | .pointer _ => .ok false
  | type => .error (type.unhandled "isSigned")

/-- Bits after the point: none except in fixed-point numbers. -/
def shift : Ty → Nat
  | .fixed encoding => encoding.shift
  | _ => 0

/-- The encoding of one, by which stepping moves. -/
def one (type : Ty) : Nat := twoTo type.shift

/-- Whether the value is narrower than its storage. -/
def isPartialWidth (pointerBits : Number) (type : Ty) : Checked Bool := do
  return (← type.valueBits).map Number.ofNat != some (← type.storageBits pointerBits)

def sizeInBytes (pointerBits : Number) : Ty → Checked Number
  | .array of length => do return length.value.mul (← sizeInBytes pointerBits of)
  | .string => .ok ((2 : Number).add (bytesFor pointerBits))
  | .void => .ok 0
  | .parameter _ => .error .sizeOfParameter
  | type => type.storageBytes pointerBits

/-- The number reduced modulo `2 ^ bits`, to the range from `-2 ^ (bits - 1)` if signed and from zero
if not. -/
def wrapTo (bits : Nat) (signed : Bool) (value : Number) : Number :=
  let modulus := Number.twoPow bits
  let rest := match value.rem modulus with
    | .nan => 0
    | rest => rest
  let unsigned := if rest.lt 0 then rest.add modulus else rest
  if signed && (modulus.div 2).le unsigned then unsigned.sub modulus else unsigned

/-- The value that a register of the type holds for a number: truth values are `0` or `1`, other values
wrap around. -/
def wrap (type : Ty) (value : Number) : Checked Number := do
  match ← type.valueBits with
  | none => throw .wrapOfPointer
  | some bits =>
    if type = .boolean then return if value.isZero then 0 else 1
    return wrapTo bits (← type.isSigned) value

end Retarget.Ty
