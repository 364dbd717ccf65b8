import Retarget.Emit.Data
import Retarget.Emit.Session

/-!
# Frames on the 6502

Registers live in the stack page. The locals come first; above them lie the return address and the
arguments as the caller pushed them. After the prologue `X` holds the stack pointer, and every byte of the
frame has a fixed distance from it.
-/
namespace Retarget.Mos6502

def pointerBits : Number := .ofNat Target.mos6502.pointerBits

def sizeOf (r : Register) : Checked Nat := do return (← r.type.storageBytes pointerBits).toCount

abbrev Offsets := Assoc Numeral Nat

structure Frame where
  offsets : Offsets
  /-- Bytes of the locals. -/
  size : Nat
deriving DecidableEq, Repr

/-- Places registers one above the other from an offset on; gives the offset behind the last. -/
def place : List Register → Nat → Offsets → Checked (Nat × Offsets)
  | [], offset, offsets => .ok (offset, offsets)
  | r :: rest, offset, offsets => do
    let offsets := offsets.set r.id offset
    place rest (offset + (← sizeOf r)) offsets

/-- Bytes between the locals and the arguments: the return address. -/
def linkBytes : Nat := 2

/-- The frame of a procedure. It has to fit in the stack page. -/
def frameOf (p : Procedure) : Emit Frame := do
  let (size, offsets) ← Emit.check (place p.localRegisters 0 [])
  let (total, offsets) ← Emit.check (place (p.parameters.map (·.register)) (size + linkBytes) offsets)
  if 255 < total then
    Emit.refuse s!"frame of {total} bytes does not fit in the stack page"
  return ⟨offsets, size⟩

end Retarget.Mos6502
