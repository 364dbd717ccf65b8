import Retarget.Emit.Data
import Retarget.Emit.Session

/-!
# Where registers live on the Z80

Under the standard convention a register lives in the frame of its procedure, at a fixed distance from
`IX`; arguments are pushed by the caller and lie above the saved `IX` and the return address. Under the
self-modifying convention every register has static storage, and callers write arguments into the operands
of the loads that the procedure starts with.
-/
namespace Retarget.Z80

inductive Size where
  | one
  | two
  | four
deriving DecidableEq, Repr

def Size.bytes : Size → Nat
  | .one => 1
  | .two => 2
  | .four => 4

def pointerBits : Number := .ofNat Target.z80.pointerBits

def sizeOf (type : Ty) : Checked Size := do
  let bits ← type.storageBits pointerBits
  if bits = 8 then return .one
  if bits = 16 then return .two
  if bits = 32 then return .four
  throw (.noByteStorage bits)

inductive Home where
  | frame (offset : Int)
  | static (label : String)
deriving DecidableEq, Repr

abbrev Homes := Assoc Numeral Home

/-! ## Frames -/

structure Frame where
  homes : Homes
  size : Nat
deriving DecidableEq, Repr

/-- Bytes that an argument takes on the stack: single bytes are pushed as words. -/
def pushedBytes : Size → Nat
  | .one | .two => 2
  | .four => 4

/-- Homes of parameters from an offset upwards; gives the offset behind the last. -/
def placeParameters : List Parameter → Nat → Homes → Checked (Nat × Homes)
  | [], offset, homes => .ok (offset, homes)
  | p :: rest, offset, homes => do
    let homes := homes.set p.register.id (.frame offset)
    let size ← sizeOf p.register.type
    placeParameters rest (offset + pushedBytes size) homes

/-- Homes of locals downwards from `IX`, behind `used` bytes; gives the bytes used in the end. -/
def placeLocals : List Register → Nat → Homes → Checked (Nat × Homes)
  | [], used, homes => .ok (used, homes)
  | r :: rest, used, homes => do
    let size ← sizeOf r.type
    let used := used + size.bytes
    placeLocals rest used (homes.set r.id (.frame (-(used : Int))))

/-- Bytes between `IX` and the arguments: the saved `IX` and the return address. -/
def linkBytes : Nat := 4

/-- The frame of a procedure. Displacements from `IX` reach 128 bytes down and 127 up. -/
def frameOf (p : Procedure) : Emit Frame := do
  let (argumentsEnd, homes) ← Emit.check (placeParameters p.parameters linkBytes [])
  let (size, homes) ← Emit.check (placeLocals p.localRegisters 0 homes)
  if 128 < size || 128 < argumentsEnd then
    Emit.refuse (s!"frame of {size} bytes and {argumentsEnd - linkBytes} bytes of arguments "
      ++ "exceeds the IX displacement range")
  return ⟨homes, size⟩

/-! ## Static homes and slots -/

/-- Static homes of all registers of the procedure with the given symbol text. -/
def staticHomes (name : String) (p : Procedure) : Homes :=
  .ofPairs (p.registers.map fun r => (r.id, .static s!"{name}_{r.text}"))

/-- The operand that a caller writes an argument into. -/
structure Slot where
  parameter : String
  label : String
  offset : Nat
  bytes : Nat
deriving DecidableEq, Repr

/-- What the labels of a parameter's slot start with. -/
def slotBase (p : Procedure) (parameter : Parameter) : Checked String := do
  return (← p.symbol.text) ++ "_" ++ parameter.name

def slotLabel (p : Procedure) (parameter : Parameter) : Checked String := do
  return (← slotBase p parameter) ++ "_imm"

/-- Bytes of the load of a slot and the store behind it: `LD A,n` and `LD (nn),A`, or `LD HL,nn` and
`LD (nn),HL`. -/
def slotCodeBytes : Size → Nat
  | .one => 5
  | _ => 6

def slotsFrom (p : Procedure) : List Parameter → Nat → Emit (List Slot)
  | [], _ => return []
  | q :: rest, position => do
    let size ← Emit.check (sizeOf q.register.type)
    if size = .four then
      let type ← Emit.check q.register.type.text
      Emit.refuse s!"parameter {q.name} is {type}; SMC slots hold at most 16 bits"
    let label ← Emit.check (slotLabel p q)
    let slots ← slotsFrom p rest (position + slotCodeBytes size)
    return ⟨q.name, label, position + 1, size.bytes⟩ :: slots

def slots (p : Procedure) : Emit (List Slot) := slotsFrom p p.parameters 0

end Retarget.Z80
