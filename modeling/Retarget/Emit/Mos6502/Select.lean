import Retarget.Emit.Line
import Retarget.Emit.Mos6502.Frame
import Retarget.Emit.Mos6502.Instruction

/-!
# Instruction selection for the 6502

Values are worked on byte by byte in `A`. Support routines take operands from scratch memory in the zero
page and leave their result there.
-/
namespace Retarget.Mos6502

abbrev Code := List (Line Instruction)

def code (instructions : List Instruction) : Code := instructions.map .plain

structure Context where
  program : Program
  name : String
  offsets : Offsets
  epilogue : String

def Context.label (ctx : Context) (name : String) : String := s!"{ctx.name}_{name}"

/-! ## Bytes -/

/-- The bytes of a value that lies somewhere, by their number. -/
abbrev Bytes := Nat → Operand

def slotOf (ctx : Context) (r : Register) : Emit Bytes :=
  match ctx.offsets.get? r.id with
  | some offset => return fun i => .slot (offset + i)
  | none => throw (.fault (.noSlot r.id ctx.name))

def scratch (name : String) : Emit Bytes := do
  let label ← Emit.useExternal name
  return fun i => .zeroPage label i

/-- Results of support routines and of procedures. -/
def resultArea : Emit Bytes := scratch "__ret"

def firstArea : Emit Bytes := scratch "__lhs"

def secondArea : Emit Bytes := scratch "__rhs"

def argumentArea : Emit Bytes := scratch "__arg"

def pointerLabel : Emit String := Emit.useExternal "__ptr"

def sizeOfRegister (r : Register) : Emit Nat := Emit.check (sizeOf r)

def copyBytes (source target : Bytes) (count : Nat) : Code :=
  (List.range count).flatMap fun i => code [.load (source i), .store (target i)]

def copyOut (ctx : Context) (r : Register) (area : Emit Bytes) : Emit Code := do
  let size ← sizeOfRegister r
  let source ← slotOf ctx r
  return copyBytes source (← area) size

def copyIn (ctx : Context) (area : Emit Bytes) (r : Register) : Emit Code := do
  let size ← sizeOfRegister r
  let source ← area
  return copyBytes source (← slotOf ctx r) size

def storeImmediates (target : Bytes) (bytes : List Number) : Code :=
  bytes.zipIdx.flatMap fun (byte, i) => code [.load (.immediate byte), .store (target i)]

/-- Makes `A` a byte of ones if the highest bit of the byte is set, and zero if not. -/
def signFill (byte : Operand) : Code :=
  code [.load byte, .shiftLeft, .load (.immediate 0), .alu .adc .ones, .alu .eor .ones]

/-- Values of 24 bits take four bytes, the last of which follows bit 23 after arithmetic. -/
def fixTopByte (type : Ty) (bytes : Bytes) : Checked Code := do
  if !type.isNumeric then return []
  if !(← type.isPartialWidth pointerBits) then return []
  let fill := if ← type.isSigned then signFill (bytes 2) else code [.load (.immediate 0)]
  return fill ++ code [.store (bytes 3)]

/-- Moves the stack pointer down, and leaves it in `X`. -/
def reserve (bytes : Nat) : Code :=
  if bytes = 0 then code [.stackToX]
  else code [.stackToX, .xToA, .setCarry, .alu .sbc (.immediate (.ofNat bytes)), .aToX, .xToStack]

/-- Moves the stack pointer up again, and leaves it in `X`. -/
def release (bytes : Nat) : Code :=
  if bytes = 0 then code [.stackToX]
  else code [.stackToX, .xToA, .clearCarry, .alu .adc (.immediate (.ofNat bytes)), .aToX, .xToStack]

/-! ## Support routines -/

/-- Calls a support routine, which does not keep `X`. -/
def callExternal (name : String) : Emit Code := do
  return code [.call (← Emit.useExternal name), .stackToX]

def viaRoutine (ctx : Context) (routine : String) (lhs : Register) (rhs : Option Register)
    (destination : Register) : Emit Code := do
  let first ← copyOut ctx lhs firstArea
  let second ← match rhs with
    | some r => copyOut ctx r secondArea
    | none => pure []
  let call ← callExternal routine
  return first ++ second ++ call ++ (← copyIn ctx resultArea destination)

/-! ## Comparisons -/

def materialize (ctx : Context) (branch : Branch) (destination : Register) : Emit Code := do
  let isTrue := ctx.label (← Emit.makeLabel "true")
  let done := ctx.label (← Emit.makeLabel "done")
  let target ← slotOf ctx destination
  return code [.branch branch isTrue, .load (.immediate 0), .branch .equal done] ++ [.label isTrue]
    ++ code [.load (.immediate 1)] ++ [.label done] ++ code [.store (target 0)]

/-- A comparison as a branch, and whether the operands are exchanged for it. -/
def branchFor (comparison : Comparison) : Checked (Branch × Bool) :=
  match comparison with
  | .eq => .ok (.equal, false)
  | .ne => .ok (.notEqual, false)
  | .lt => .ok (.carryClear, false)
  | .ge => .ok (.carrySet, false)
  | .gt => .ok (.carryClear, true)
  | .le => .ok (.carrySet, true)
  | .other _ => .error (comparison.unhandled "branchFor")

/-- Whether a register holds a single byte without a sign, which one instruction compares. -/
def isPlainByte (r : Register) : Checked Bool := do
  if (← sizeOf r) = 1 then return !(← r.type.isSigned) else return false

def compare (ctx : Context) (comparison : Comparison) (lhs rhs destination : Register) : Emit Code := do
  let (branch, swap) ← Emit.check (branchFor comparison)
  let (lhs, rhs) := if swap then (rhs, lhs) else (lhs, rhs)
  if ← Emit.check (isPlainByte lhs) then
    let first ← slotOf ctx lhs
    let second ← slotOf ctx rhs
    return code [.load (first 0), .alu .cmp (second 0)] ++ (← materialize ctx branch destination)
  else
    let routine ← Emit.useExternal (← Emit.check (routineFor "compare" lhs.type))
    let first ← copyOut ctx lhs firstArea
    let second ← copyOut ctx rhs secondArea
    -- the routine leaves X alone, and setting it would disturb the flags
    return first ++ second ++ code [.call routine] ++ (← materialize ctx branch destination)

def testZero (ctx : Context) (source : Register) (negated : Bool) (destination : Register) :
    Emit Code := do
  let bytes ← slotOf ctx source
  let size ← sizeOfRegister source
  let rest := code ((List.range (size - 1)).map fun i => .alu .ora (bytes (i + 1)))
  return code [.load (bytes 0)] ++ rest
    ++ (← materialize ctx (if negated then .notEqual else .equal) destination)

/-! ## Arithmetic -/

/-- The operators that work byte by byte: what sets the carry up for them, and what they do with a byte. -/
def bytewise? (operator : Operator) : Option (List Instruction × (Operand → Instruction)) :=
  match operator with
  | .add => some ([.clearCarry], .alu .adc)
  | .subtract => some ([.setCarry], .alu .sbc)
  | .and => some ([], .alu .and)
  | .or => some ([], .alu .ora)
  | .xor => some ([], .alu .eor)
  | _ => operator.stray?.map fun _ => ([], fun operand => .directive s!"undefined {operand.text}")

def arithmetic (ctx : Context) (operator : Operator) (lhs rhs destination : Register) : Emit Code := do
  let type := destination.type
  match bytewise? operator with
  | none =>
    viaRoutine ctx (← Emit.check (routineFor operator.name type)) lhs (some rhs) destination
  | some (setup, operation) =>
    let size ← sizeOfRegister destination
    let first ← slotOf ctx lhs
    let second ← slotOf ctx rhs
    let target ← slotOf ctx destination
    let body := (List.range size).flatMap fun i =>
      code [.load (first i), operation (second i), .store (target i)]
    return code setup ++ body ++ (← Emit.check (fixTopByte type target))

/-- Adds or subtracts the bytes of an amount from the given byte on. -/
def stepBytes (operation : Alu) (bytes : Bytes) : List Number → Nat → Code
  | [], _ => []
  | amount :: rest, i =>
    code [.load (bytes i), .alu operation (.immediate amount), .store (bytes i)]
      ++ stepBytes operation bytes rest (i + 1)

/-- Stepping by one. Bytes below the first that changes are left out, as no carry comes from them. -/
def step (ctx : Context) (direction : Direction) (r : Register) : Emit Code := do
  let type := r.type
  if !type.isNumeric then
    let text ← Emit.check type.text
    throw (.fault (.stepOf direction.name text))
  let size ← sizeOfRegister r
  let amount := bytesOf (.ofNat type.one) (.ofNat size)
  let first := (amount.takeWhile (· = 0)).length
  if first = amount.length then return []
  let bytes ← slotOf ctx r
  let (setup, operation) : Instruction × Alu := match direction with
    | .increment => (.clearCarry, .adc)
    | .decrement => (.setCarry, .sbc)
  return code [setup] ++ stepBytes operation bytes (amount.drop first) first
    ++ (← Emit.check (fixTopByte type bytes))

def move (ctx : Context) (source target : Register) : Emit Code := do
  let size ← sizeOfRegister target
  let bytes ← slotOf ctx source
  return copyBytes bytes (← slotOf ctx target) size

def convert (ctx : Context) (source target : Register) : Emit Code := do
  if isBitPreserving source.type target.type then move ctx source target
  else viaRoutine ctx (← Emit.check (conversionRoutine source.type target.type)) source none target

/-! ## Calls -/

def pushBytes (bytes : Bytes) (size : Nat) : Code :=
  (List.range size).reverse.flatMap fun i => code [.load (bytes i), .push]

/-- Pushes arguments in the given order; gives the bytes pushed as well. -/
def pushArguments (ctx : Context) : List Register → Emit (Code × Nat)
  | [] => return ([], 0)
  | argument :: rest => do
    let size ← sizeOfRegister argument
    let bytes ← slotOf ctx argument
    let (pushes, count) ← pushArguments ctx rest
    return (pushBytes bytes size ++ pushes, size + count)

/-- Calls a procedure. The last argument is pushed first, so that the first one lies lowest. -/
def callFunction (ctx : Context) (symbol : Symbol) (arguments : List Register) (result : Code) :
    Emit Code := do
  match ctx.program.find? symbol with
  | none =>
    let text ← Emit.check symbol.text
    throw (.fault (.missingFunction text))
  | some callee =>
    let (pushes, count) ← pushArguments ctx arguments.reverse
    let name ← Emit.check callee.symbol.text
    return pushes ++ code [.call name] ++ release count ++ result

def call (ctx : Context) (target : CallTarget) (arguments : List Register)
    (destination : Option Register) : Emit Code := do
  let result ← match destination with
    | some r => copyIn ctx resultArea r
    | none => pure []
  match target with
  | .routine routine =>
    let loads ← arguments.mapM fun r => copyOut ctx r argumentArea
    return loads.flatten ++ (← callExternal routine.name)
  | .function symbol => callFunction ctx symbol arguments result

/-! ## Memory -/

/-- Brings an index into the result area as a word. -/
def widenIndex (ctx : Context) (index : Register) : Emit Code := do
  let size ← sizeOfRegister index
  if size = 1 then
    let isSigned ← Emit.check index.type.isSigned
    let bytes ← slotOf ctx index
    let area ← resultArea
    let high := if isSigned then signFill (bytes 0) else code [.load (.immediate 0)]
    return high ++ code [.store (area 1), .load (bytes 0), .store (area 0)]
  else
    let bytes ← slotOf ctx index
    return copyBytes bytes (← resultArea) 2

def scaleIndex (size : Number) : Emit Code := do
  if size = 1 then return []
  let area ← resultArea
  let first ← firstArea
  let second ← secondArea
  return copyBytes area first 2 ++ storeImmediates second (bytesOf size 2)
    ++ (← callExternal "__multiply_u16")

def arrayIndex (ctx : Context) (base index destination : Register) : Emit Code := do
  let element ← Emit.check base.type.pointee
  let size ← Emit.check (element.sizeInBytes pointerBits)
  let widen ← widenIndex ctx index
  let scale ← scaleIndex size
  let offset ← resultArea
  let start ← slotOf ctx base
  let target ← slotOf ctx destination
  let sum := [0, 1].flatMap fun i => code [.load (offset i), .alu .adc (start i), .store (target i)]
  return widen ++ scale ++ code [.clearCarry] ++ sum

def setPointer (ctx : Context) (address : Register) : Emit (Code × String) := do
  let bytes ← slotOf ctx address
  let label ← pointerLabel
  return (copyBytes bytes (fun i => .zeroPage label i) 2, label)

def load (ctx : Context) (address destination : Register) : Emit Code := do
  let (pointer, label) ← setPointer ctx address
  let size ← sizeOfRegister destination
  let target ← slotOf ctx destination
  return pointer ++ (List.range size).flatMap fun i =>
    code [.loadY i, .load (.indirect label), .store (target i)]

def store (ctx : Context) (address value : Register) : Emit Code := do
  let (pointer, label) ← setPointer ctx address
  let size ← sizeOfRegister value
  let source ← slotOf ctx value
  return pointer ++ (List.range size).flatMap fun i =>
    code [.loadY i, .load (source i), .store (.indirect label)]

/-! ## Instructions -/

def select (ctx : Context) : Operation → Emit Code
  | .loadImmediate value destination => do
    let size ← sizeOfRegister destination
    return storeImmediates (← slotOf ctx destination) (bytesOf value (.ofNat size))
  | .move source target => move ctx source target
  | .binary operator lhs rhs destination => arithmetic ctx operator lhs rhs destination
  | .compare comparison lhs rhs destination => compare ctx comparison lhs rhs destination
  | .testZero source negated destination => testZero ctx source negated destination
  | .convert source target => convert ctx source target
  | .step direction r => step ctx direction r
  | .label name => return [.label (ctx.label name)]
  | .goto name => return code [.jump (ctx.label name)]
  | .gotoIfFalse condition name => do
    -- a branch reaches 127 bytes only, so it skips a jump
    let skip := ctx.label (← Emit.makeLabel "skip")
    let bytes ← slotOf ctx condition
    return code [.load (bytes 0), .branch .notEqual skip, .jump (ctx.label name)] ++ [.label skip]
  | .call target arguments destination => call ctx target arguments destination
  | .ret register => do
    let value ← match register with
      | some r => copyOut ctx r resultArea
      | none => pure []
    return value ++ code [.jump ctx.epilogue]
  | .addressOf symbol destination => do
    let target ← slotOf ctx destination
    return code [.load (.lowByteOf symbol.text), .store (target 0),
      .load (.highByteOf symbol.text), .store (target 1)]
  | .arrayIndex base index destination => arrayIndex ctx base index destination
  | .load address destination => load ctx address destination
  | .store address value => store ctx address value
  | .unknown node => throw (.fault (.unhandled node "statementTo6502"))

end Retarget.Mos6502
