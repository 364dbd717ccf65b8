import Retarget.Number.Decimal

/-!
# 68000 instructions

The instructions that the emitter uses, and how they are written.
-/
namespace Retarget.M68k

inductive DataRegister where
  | d0
  | d1
  | d2
deriving DecidableEq, Repr

inductive Operand where
  | data (register : DataRegister)
  /-- The address register `a0`. -/
  | address
  /-- A long word of the frame, by its distance from `a6`. -/
  | slot (offset : Int)
  | immediate (value : Number)
deriving DecidableEq, Repr

inductive Width where
  | byte
  | word
  | long
deriving DecidableEq, Repr

/-- Operations on long words, with the result in the second operand. A comparison only sets flags. -/
inductive Alu where
  | add
  | sub
  | and
  | or
  | eor
  | cmp
deriving DecidableEq, Repr

inductive Shift where
  | left
  | arithmeticRight
  | logicalRight
deriving DecidableEq, Repr

inductive Condition where
  | equal
  | notEqual
  | less
  | lessOrEqual
  | greater
  | greaterOrEqual
  | carrySet
  | lowerOrSame
  | higher
  | carryClear
deriving DecidableEq, Repr

inductive Instruction where
  -- Moves
  | move (source target : Operand)
  | moveToAddress (source : Operand)
  | moveQuick (value : Nat) (target : DataRegister)
  | loadAddress (label : String)
  /-- Loads from where `a0` points to, into the low part of `d0`. -/
  | loadIndirect (width : Width)
  /-- Stores the low part of `d0` where `a0` points to. -/
  | storeIndirect (width : Width)
  | push (source : Operand)
  /-- Takes eight bytes off the stack. -/
  | dropTwo
  | drop (bytes : Nat)
  -- Arithmetic
  | alu (operation : Alu) (source : Operand) (target : DataRegister)
  /-- Extends the sign of the low byte of `d0` to its low word. -/
  | extendByte
  /-- Extends the sign of the low word of `d0`. -/
  | extendWord
  | shiftBy (shift : Shift) (count : Int)
  | shiftByRegister (shift : Shift) (count : DataRegister)
  /-- The product of the low words, with a sign or without, in `d0`. -/
  | multiply (signed : Bool) (source : Operand)
  | test (operand : Operand)
  /-- Sets the low byte of `d0` to ones if the condition holds, and to zero if not. -/
  | set (condition : Condition)
  -- Control
  | branch (label : String)
  | branchShort (label : String)
  | branchShortIfCarryClear (label : String)
  | branchIfEqual (label : String)
  | call (label : String)
  | link (bytes : Nat)
  | unlink
  | ret
  /-- A directive of the assembler, or what else is written in its place. -/
  | directive (text : String)
deriving DecidableEq, Repr

def DataRegister.text : DataRegister → String
  | .d0 => "d0"
  | .d1 => "d1"
  | .d2 => "d2"

def Operand.text : Operand → String
  | .data register => register.text
  | .address => "a0"
  | .slot offset => offset.repr ++ "(a6)"
  | .immediate value => s!"#{value.text}"

def Width.text : Width → String
  | .byte => "b"
  | .word => "w"
  | .long => "l"

def Alu.text : Alu → String
  | .add => "add"
  | .sub => "sub"
  | .and => "and"
  | .or => "or"
  | .eor => "eor"
  | .cmp => "cmp"

def Shift.text : Shift → String
  | .left => "lsl"
  | .arithmeticRight => "asr"
  | .logicalRight => "lsr"

def Condition.text : Condition → String
  | .equal => "eq"
  | .notEqual => "ne"
  | .less => "lt"
  | .lessOrEqual => "le"
  | .greater => "gt"
  | .greaterOrEqual => "ge"
  | .carrySet => "cs"
  | .lowerOrSame => "ls"
  | .higher => "hi"
  | .carryClear => "cc"

def Instruction.text : Instruction → String
  | .move source target => s!"move.l {source.text},{target.text}"
  | .moveToAddress source => s!"movea.l {source.text},a0"
  | .moveQuick value target => s!"moveq #{value},{target.text}"
  | .loadAddress label => s!"lea {label},a0"
  | .loadIndirect width => s!"move.{width.text} (a0),d0"
  | .storeIndirect width => s!"move.{width.text} d0,(a0)"
  | .push source => s!"move.l {source.text},-(sp)"
  | .dropTwo => "addq.l #8,sp"
  | .drop bytes => s!"add.l #{bytes},sp"
  | .alu operation source target => s!"{operation.text}.l {source.text},{target.text}"
  | .extendByte => "ext.w d0"
  | .extendWord => "ext.l d0"
  | .shiftBy shift count => s!"{shift.text}.l #{count.repr},d0"
  | .shiftByRegister shift count => s!"{shift.text}.l {count.text},d0"
  | .multiply signed source => (if signed then "muls.w " else "mulu.w ") ++ source.text ++ ",d0"
  | .test operand => s!"tst.l {operand.text}"
  | .set condition => s!"s{condition.text} d0"
  | .branch label => s!"bra {label}"
  | .branchShort label => s!"bra.s {label}"
  | .branchShortIfCarryClear label => s!"bcc.s {label}"
  | .branchIfEqual label => s!"beq {label}"
  | .call label => s!"jsr {label}"
  | .link bytes => s!"link a6,#-{bytes}"
  | .unlink => "unlk a6"
  | .ret => "rts"
  | .directive text => text

end Retarget.M68k
