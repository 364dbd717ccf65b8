import Retarget.Number.Decimal
import Retarget.Text

/-!
# 6502 instructions

The instructions that the emitter uses, and how they are written.
-/
namespace Retarget.Mos6502

inductive Operand where
  /-- A byte of the frame, by its distance from the frame's base. -/
  | slot (offset : Nat)
  /-- A byte behind a label in the zero page. -/
  | zeroPage (label : String) (offset : Nat)
  | immediate (value : Number)
  /-- A byte of ones. -/
  | ones
  | lowByteOf (label : String)
  | highByteOf (label : String)
  /-- The byte that the pointer at a label leads to, moved on by `Y`. -/
  | indirect (label : String)
deriving DecidableEq, Repr

/-- Operations on `A` and an operand, with the result in `A`. A comparison only sets flags. -/
inductive Alu where
  | adc
  | sbc
  | and
  | ora
  | eor
  | cmp
deriving DecidableEq, Repr

inductive Branch where
  | equal
  | notEqual
  | carryClear
  | carrySet
deriving DecidableEq, Repr

inductive Instruction where
  | load (operand : Operand)
  | store (operand : Operand)
  | alu (operation : Alu) (operand : Operand)
  /-- Shifts `A` left, the highest bit into the carry. -/
  | shiftLeft
  | loadY (value : Nat)
  | clearCarry
  | setCarry
  | push
  -- Copies between `A`, `X` and the stack pointer
  | stackToX
  | xToStack
  | xToA
  | aToX
  -- Control
  | branch (condition : Branch) (label : String)
  | jump (label : String)
  | call (label : String)
  | ret
  /-- A directive of the assembler, or what else is written in its place. -/
  | directive (text : String)
deriving DecidableEq, Repr

/-- The address in the stack page that `X` is added to for the base of the frame. -/
def frameBase : Nat := 0x101

def Operand.text : Operand → String
  | .slot offset => "$" ++ Text.hex 4 (frameBase + offset) ++ ",X"
  | .zeroPage label offset => if offset = 0 then label else s!"{label}+{offset}"
  | .immediate value => s!"#{value.text}"
  | .ones => "#$FF"
  | .lowByteOf label => s!"#<{label}"
  | .highByteOf label => s!"#>{label}"
  | .indirect label => s!"({label}),Y"

def Alu.text : Alu → String
  | .adc => "ADC"
  | .sbc => "SBC"
  | .and => "AND"
  | .ora => "ORA"
  | .eor => "EOR"
  | .cmp => "CMP"

def Branch.text : Branch → String
  | .equal => "BEQ"
  | .notEqual => "BNE"
  | .carryClear => "BCC"
  | .carrySet => "BCS"

def Instruction.text : Instruction → String
  | .load operand => s!"LDA {operand.text}"
  | .store operand => s!"STA {operand.text}"
  | .alu operation operand => s!"{operation.text} {operand.text}"
  | .shiftLeft => "ASL A"
  | .loadY value => s!"LDY #{value}"
  | .clearCarry => "CLC"
  | .setCarry => "SEC"
  | .push => "PHA"
  | .stackToX => "TSX"
  | .xToStack => "TXS"
  | .xToA => "TXA"
  | .aToX => "TAX"
  | .branch condition label => s!"{condition.text} {label}"
  | .jump label => s!"JMP {label}"
  | .call label => s!"JSR {label}"
  | .ret => "RTS"
  | .directive text => text

end Retarget.Mos6502
