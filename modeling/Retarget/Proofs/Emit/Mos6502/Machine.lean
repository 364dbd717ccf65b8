import Retarget.Emit.Mos6502.Module
import Retarget.Proofs.Emit.Line
import Retarget.Proofs.Emit.Stack

/-!
# A 6502

The registers, the zero and the carry flag, and memory, in binary mode. Instructions that only compute and move
data have a meaning here, one after the other; branches, jumps and calls have none.
-/
namespace Retarget.Mos6502

structure Machine where
  a : Byte
  x : Byte
  y : Byte
  sp : Byte
  zero : Bool
  carry : Bool
  memory : Word → Byte

namespace Machine

variable (m : Machine)

/-- The stack page as a stack. The stack pointer is the place of the next byte. -/
def stack : Stack := ⟨BitVec.ofNat 16 frameBase + m.sp.setWidth 16, m.memory⟩

def write (address : Word) (byte : Byte) : Machine :=
  { m with memory := fun other => if other = address then byte else m.memory other }

def setA (value : Byte) : Machine := { m with a := value, zero := value = 0 }

def setX (value : Byte) : Machine := { m with x := value, zero := value = 0 }

def pushByte (byte : Byte) : Machine :=
  { m.write (0x100 + m.sp.setWidth 16) byte with sp := m.sp - 1 }

def pushWord (value : Word) : Machine := (m.pushByte value.high).pushByte value.low

def slotAddress (offset : Nat) : Word := BitVec.ofNat 16 (frameBase + offset) + m.x.setWidth 16

/-- `A` and the flags after an operation on `A` and a byte. -/
def operate (operation : Alu) (byte : Byte) : Machine :=
  match operation with
  | .adc =>
    let sum := m.a.toNat + byte.toNat + m.carry.toNat
    { m.setA (BitVec.ofNat 8 sum) with carry := decide (255 < sum) }
  | .sbc =>
    let taken := byte.toNat + (!m.carry).toNat
    { m.setA (m.a - BitVec.ofNat 8 taken) with carry := decide (taken ≤ m.a.toNat) }
  | .and => m.setA (m.a &&& byte)
  | .ora => m.setA (m.a ||| byte)
  | .eor => m.setA (m.a ^^^ byte)
  | .cmp => { m with zero := m.a = byte, carry := decide (byte.toNat ≤ m.a.toNat) }

end Machine

variable (labels : String → Word)

/-- The address of what an operand stands for, if it lies in memory. -/
def Operand.address? (m : Machine) : Operand → Option Word
  | .slot offset => some (m.slotAddress offset)
  | .zeroPage label offset => some (labels label + BitVec.ofNat 16 offset)
  | .indirect label =>
    some ((m.memory (labels label + 1) ++ m.memory (labels label) : Word) + m.y.setWidth 16)
  | .immediate _ | .ones | .lowByteOf _ | .highByteOf _ => none

def Operand.value (m : Machine) (operand : Operand) : Byte :=
  match operand with
  | .immediate value => value.word 8
  | .ones => 0xFF
  | .lowByteOf label => (labels label).low
  | .highByteOf label => (labels label).high
  | .slot _ | .zeroPage _ _ | .indirect _ => ((operand.address? labels m).map m.memory).getD 0

def exec (i : Instruction) (m : Machine) : Option Machine :=
  match i with
  | .load operand => some (m.setA (operand.value labels m))
  | .store operand => (operand.address? labels m).map (m.write · m.a)
  | .alu operation operand => some (m.operate operation (operand.value labels m))
  | .shiftLeft => some { m.setA (m.a <<< 1) with carry := m.a.msb }
  | .loadY value => some { m with y := BitVec.ofNat 8 value, zero := BitVec.ofNat 8 value = 0 }
  | .clearCarry => some { m with carry := false }
  | .setCarry => some { m with carry := true }
  | .push => some (m.pushByte m.a)
  | .stackToX => some (m.setX m.sp)
  | .xToStack => some { m with sp := m.x }
  | .xToA => some (m.setA m.x)
  | .aToX => some (m.setX m.a)
  | .branch _ _ | .jump _ | .call _ | .ret | .directive _ => none

def run (lines : Code) (m : Machine) : Option Machine := Line.run (exec labels) lines m

theorem run_append (lines lines' : Code) (m : Machine) :
    run labels (lines ++ lines') m = (run labels lines m).bind (run labels lines') :=
  Line.run_append _ _ _ _

theorem run_append_of (h : run labels lines m = some m') : run labels (lines ++ lines') m = run labels lines' m' := by
  rw [run_append, h, Option.bind_some]

/-- While the stack page has room, pushing works as on any stack. -/
theorem Machine.stack_pushByte {m : Machine} (h : 0 < m.sp.toNat) (byte : Byte) :
    (m.pushByte byte).stack = m.stack.push byte := by
  have htop : BitVec.ofNat 16 frameBase + (m.sp - 1).setWidth 16 =
      BitVec.ofNat 16 frameBase + m.sp.setWidth 16 - 1#16 := by
    simp only [frameBase]
    bv_omega
  have hwritten : (0x100 : Word) + m.sp.setWidth 16 = BitVec.ofNat 16 frameBase + m.sp.setWidth 16 - 1#16 := by
    simp only [frameBase]
    bv_omega
  show (⟨BitVec.ofNat 16 frameBase + (m.sp - 1).setWidth 16,
    fun other => if other = 0x100 + m.sp.setWidth 16 then byte else m.memory other⟩ : Stack) = m.stack.push byte
  rw [htop, hwritten]
  rfl

theorem Machine.stack_pushWord {m : Machine} (h : 2 ≤ m.sp.toNat) (value : Word) :
    (m.pushWord value).stack = m.stack.load [value.low, value.high] ∧ (m.pushWord value).sp.toNat + 2 = m.sp.toNat := by
  have hsp : (m.pushByte value.high).sp.toNat + 1 = m.sp.toNat := by
    show (m.sp - 1).toNat + 1 = m.sp.toNat
    bv_omega
  constructor
  · rw [pushWord, stack_pushByte (by omega), stack_pushByte (by omega)]
    rfl
  · show (m.sp - 1 - 1).toNat + 2 = m.sp.toNat
    bv_omega

end Retarget.Mos6502
