import Retarget.Number.Decimal

/-!
# Z80 instructions

The instructions that the emitter uses, and how they are written.
-/
namespace Retarget.Z80

inductive Half where
  | a
  | b
  | d
  | e
  | h
  | l
deriving DecidableEq, Repr

inductive Pair where
  | bc
  | de
  | hl
  | ix
  | sp
deriving DecidableEq, Repr

inductive Condition where
  | zero
  | notZero
  | carry
  | noCarry
deriving DecidableEq, Repr

/-- Operations on `A` and another register, with the result in `A`. A comparison only sets flags. -/
inductive Alu where
  | add
  | subtract
  | and
  | or
  | xor
  | compare
deriving DecidableEq, Repr

/-- A byte of memory: in the frame, by its distance from `IX`, or behind a label. -/
inductive Place where
  | frame (offset : Int)
  | static (label : String) (offset : Nat)
deriving DecidableEq, Repr

inductive Instruction where
  -- Loads and stores
  | loadByte (register : Half) (place : Place)
  | storeByte (place : Place) (register : Half)
  | loadWord (register : Pair) (place : Place)
  | storeWord (place : Place) (register : Pair)
  | loadIndirect (register : Half)
  | storeIndirect (register : Half)
  | setByte (register : Half) (value : Number)
  | setWord (register : Pair) (value : Number)
  | setLabel (register : Pair) (label : String)
  | copyByte (target source : Half)
  | copyToStackPointer (source : Pair)
  | exchange
  | push (register : Pair)
  | pop (register : Pair)
  /-- Copies `BC` bytes from `HL` on to `DE` on. -/
  | copyBlock
  -- Arithmetic
  | alu (operation : Alu) (register : Half)
  /-- Flips the highest bit of `A`. -/
  | flipSign
  | addWord (target source : Pair)
  | subtractWithCarry
  | incrementByte (register : Half)
  | decrementByte (register : Half)
  | incrementWord
  | decrementWord
  -- Control
  | jump (label : String)
  | jumpIfZero (label : String)
  | jumpRelative (condition : Condition) (label : String)
  | call (label : String)
  | ret
  /-- A directive of the assembler, or what else is written in its place. -/
  | directive (text : String)
deriving DecidableEq, Repr

def Half.text : Half → String
  | .a => "A"
  | .b => "B"
  | .d => "D"
  | .e => "E"
  | .h => "H"
  | .l => "L"

def Pair.text : Pair → String
  | .bc => "BC"
  | .de => "DE"
  | .hl => "HL"
  | .ix => "IX"
  | .sp => "SP"

def Condition.text : Condition → String
  | .zero => "Z"
  | .notZero => "NZ"
  | .carry => "C"
  | .noCarry => "NC"

def Alu.text (register : Half) : Alu → String
  | .add => s!"ADD A,{register.text}"
  | .subtract => s!"SUB {register.text}"
  | .and => s!"AND {register.text}"
  | .or => s!"OR {register.text}"
  | .xor => s!"XOR {register.text}"
  | .compare => s!"CP {register.text}"

def Place.text : Place → String
  | .frame offset => "(IX" ++ (if 0 ≤ offset then "+" else "") ++ offset.repr ++ ")"
  | .static label offset => "(" ++ label ++ (if 0 < offset then "+" ++ offset.repr else "") ++ ")"

def Instruction.text : Instruction → String
  | .loadByte register place => s!"LD {register.text},{place.text}"
  | .storeByte place register => s!"LD {place.text},{register.text}"
  | .loadWord register place => s!"LD {register.text},{place.text}"
  | .storeWord place register => s!"LD {place.text},{register.text}"
  | .loadIndirect register => s!"LD {register.text},(HL)"
  | .storeIndirect register => s!"LD (HL),{register.text}"
  | .setByte register value => s!"LD {register.text},{value.text}"
  | .setWord register value => s!"LD {register.text},{value.text}"
  | .setLabel register label => s!"LD {register.text},{label}"
  | .copyByte target source => s!"LD {target.text},{source.text}"
  | .copyToStackPointer source => s!"LD SP,{source.text}"
  | .exchange => "EX DE,HL"
  | .push register => s!"PUSH {register.text}"
  | .pop register => s!"POP {register.text}"
  | .copyBlock => "LDIR"
  | .alu operation register => operation.text register
  | .flipSign => "XOR 80H"
  | .addWord target source => s!"ADD {target.text},{source.text}"
  | .subtractWithCarry => "SBC HL,DE"
  | .incrementByte register => s!"INC {register.text}"
  | .decrementByte register => s!"DEC {register.text}"
  | .incrementWord => "INC HL"
  | .decrementWord => "DEC HL"
  | .jump label => s!"JP {label}"
  | .jumpIfZero label => s!"JP Z,{label}"
  | .jumpRelative condition label => s!"JR {condition.text},{label}"
  | .call label => s!"CALL {label}"
  | .ret => "RET"
  | .directive text => text

end Retarget.Z80
