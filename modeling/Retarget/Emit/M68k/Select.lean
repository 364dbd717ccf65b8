import Retarget.Emit.Data
import Retarget.Emit.Line
import Retarget.Emit.M68k.Instruction
import Retarget.Emit.Session
import Retarget.Number.Logarithm

/-!
# Instruction selection for the 68000

Every register has a long word of the frame, which holds its value extended to 32 bits. Operations load
their operands into `d0` and `d1`, bring the result in `d0` back to that form and store it.
-/
namespace Retarget.M68k

abbrev Code := List (Line Instruction)

def code (instructions : List Instruction) : Code := instructions.map .plain

def pointerBits : Number := .ofNat Target.m68k.pointerBits

/-! ## Frames -/

abbrev Slots := Assoc Numeral Int

/-- Parameters lie above the saved `a6` and the return address, in the order of declaration. -/
def placeParameters (p : Procedure) : Slots :=
  p.parameters.zipIdx.foldl (fun slots (q, i) => slots.set q.register.id (8 + 4 * (i : Int))) []

/-- Locals lie below `a6`. -/
def placeLocals (p : Procedure) (slots : Slots) : Slots :=
  p.localRegisters.zipIdx.foldl (fun slots (r, i) => slots.set r.id (-(4 * ((i : Int) + 1)))) slots

def slotsOf (p : Procedure) : Slots := placeLocals p (placeParameters p)

def frameSize (p : Procedure) : Nat := 4 * p.localRegisters.length

structure Context where
  program : Program
  name : String
  slots : Slots

def Context.label (ctx : Context) (name : String) : String := s!"{ctx.name}_{name}"

def slotOf (ctx : Context) (r : Register) : Emit Operand :=
  match ctx.slots.get? r.id with
  | some offset => return .slot offset
  | none => throw (.fault (.noSlot r.id ctx.name))

def d0 : Operand := .data .d0
def d1 : Operand := .data .d1

/-! ## Arithmetic on registers -/

/-- Extends the sign of a value of the given width in `d0`. -/
def extendSign (bits : Nat) : Checked Code :=
  match bits with
  | 8 => .ok (code [.extendByte, .extendWord])
  | 16 => .ok (code [.extendWord])
  | 24 => .ok (code [.shiftBy .left 8, .shiftBy .arithmeticRight 8])
  | bits => .error (.noSignExtension bits)

/-- Brings `d0` back to a value of the type, extended to 32 bits. -/
def normalize (type : Ty) : Checked Code := do
  if type = .boolean || type.isPointer then return []
  match ← type.valueBits with
  | none | some 32 => return []
  | some bits =>
    if ← type.isSigned then extendSign bits
    else return code [.alu .and (.immediate ((Number.twoPow bits).sub 1)) .d0]

/-- Shifts `d0` by a constant. Counts in an instruction reach 8 only. -/
def shiftConstant (shift : Shift) (count : Nat) : Code :=
  if count ≤ 8 then code [.shiftBy shift count]
  else code [.moveQuick count .d2, .shiftByRegister shift .d2]

/-- Calls a routine with `d0` and `d1` on the stack and its result in `d0`. -/
def libraryCall (routine : String) : Emit Code := do
  return code [.push d1, .push d0, .call (← Emit.useExternal routine), .dropTwo]

def aluOf? : Operator → Option Alu
  | .add => some .add
  | .subtract => some .sub
  | .and => some .and
  | .or => some .or
  | .xor => some .eor
  | _ => none

def multiply (type : Ty) (bits : Nat) (signed : Bool) : Emit Code := do
  match type with
  | .fixed encoding =>
    if 16 < bits then libraryCall (← Emit.check (routineFor "multiply" type))
    else return code [.multiply true d1] ++ shiftConstant .arithmeticRight encoding.shift
  | _ =>
    if bits ≤ 16 then return code [.multiply signed d1]
    else libraryCall "__mulsi3"

def divide (type : Ty) (signed : Bool) : Emit Code := do
  match type with
  | .fixed _ => libraryCall (← Emit.check (routineFor "divide" type))
  | _ => libraryCall (if signed then "__divsi3" else "__udivsi3")

/-- Shifts `d0` by `d1`. A count outside the value's width, which is a large one when taken without its
sign, leaves nothing but the sign. -/
def shiftRegister (ctx : Context) (bits : Nat) (inRange : Shift) (keepsSign : Bool) : Emit Code := do
  let outOfRange := ctx.label (← Emit.makeLabel "shift_out")
  let done := ctx.label (← Emit.makeLabel "shift_done")
  let saturated := if keepsSign then
      code [.moveQuick 31 .d1, .shiftByRegister .arithmeticRight .d1]
    else code [.moveQuick 0 .d0]
  return code [.alu .cmp (.immediate (.ofNat bits)) .d1, .branchShortIfCarryClear outOfRange,
      .shiftByRegister inRange .d1, .branchShort done]
    ++ [.label outOfRange] ++ saturated ++ [.label done]

def operation (ctx : Context) (operator : Operator) (type : Ty) : Emit Code := do
  match ← Emit.check type.valueBits with
  | none => throw (.fault .arithmeticOnPointer)
  | some bits =>
    if let some simple := aluOf? operator then return code [.alu simple d1 .d0]
    if let some stray := operator.stray? then return code [.directive s!"{stray} d1,d0"]
    let signed ← Emit.check type.isSigned
    match operator with
    | .multiply => multiply type bits signed
    | .divide => divide type signed
    | .modulo => libraryCall (if signed then "__modsi3" else "__umodsi3")
    | .shiftLeft => shiftRegister ctx bits .left false
    | .shiftRight =>
      shiftRegister ctx bits (if signed then .arithmeticRight else .logicalRight) signed
    | _ => throw (.fault (.operatorNotHandled operator.name))

def conditionFor (comparison : Comparison) (signed : Bool) : Checked Condition :=
  match comparison with
  | .eq => .ok .equal
  | .ne => .ok .notEqual
  | .lt => .ok (if signed then .less else .carrySet)
  | .le => .ok (if signed then .lessOrEqual else .lowerOrSame)
  | .gt => .ok (if signed then .greater else .higher)
  | .ge => .ok (if signed then .greaterOrEqual else .carryClear)
  | .other _ => .error (comparison.unhandled "conditionCode")

/-- Makes `d0` one if the condition holds, and zero if not. -/
def setTruth (condition : Condition) : Code :=
  code [.set condition, .alu .and (.immediate 1) .d0]

def conversion (source target : Ty) : Checked Code := do
  if target = .boolean then return code [.test d0] ++ setTruth .notEqual
  if target.isPointer || source.isPointer then return []
  let rescale :=
    if source.shift < target.shift then shiftConstant .left (target.shift - source.shift)
    else if target.shift < source.shift then shiftConstant .arithmeticRight (source.shift - target.shift)
    else []
  return rescale ++ (← normalize target)

/-! ## Instructions -/

def arithmetic (ctx : Context) (operator : Operator) (lhs rhs destination : Register) : Emit Code := do
  let first ← slotOf ctx lhs
  let second ← slotOf ctx rhs
  let compute ← operation ctx operator destination.type
  let fit ← Emit.check (normalize destination.type)
  let target ← slotOf ctx destination
  return code [.move first d0, .move second d1] ++ compute ++ fit ++ code [.move d0 target]

def compare (ctx : Context) (comparison : Comparison) (lhs rhs destination : Register) : Emit Code := do
  let first ← slotOf ctx lhs
  let second ← slotOf ctx rhs
  let signed ← Emit.check lhs.type.isSigned
  let condition ← Emit.check (conditionFor comparison signed)
  let target ← slotOf ctx destination
  return code [.move first d0, .alu .cmp second .d0] ++ setTruth condition ++ code [.move d0 target]

def testZero (ctx : Context) (source : Register) (negated : Bool) (destination : Register) :
    Emit Code := do
  let operand ← slotOf ctx source
  let target ← slotOf ctx destination
  return code [.test operand] ++ setTruth (if negated then .notEqual else .equal)
    ++ code [.move d0 target]

def convert (ctx : Context) (source target : Register) : Emit Code := do
  let operand ← slotOf ctx source
  let change ← Emit.check (conversion source.type target.type)
  return code [.move operand d0] ++ change ++ code [.move d0 (← slotOf ctx target)]

def step (ctx : Context) (direction : Direction) (r : Register) : Emit Code := do
  let type := r.type
  if !type.isNumeric then
    let text ← Emit.check type.text
    throw (.fault (.stepOf direction.name text))
  let slot ← slotOf ctx r
  let operation : Alu := match direction with
    | .increment => .add
    | .decrement => .sub
  let fit ← Emit.check (normalize type)
  return code [.move slot d0, .alu operation (.immediate (.ofNat type.one)) .d0] ++ fit
    ++ code [.move d0 slot]

def callLabel (ctx : Context) (target : CallTarget) : Emit String := do
  match target with
  | .routine routine => Emit.useExternal routine.name
  | .function symbol =>
    match ctx.program.find? symbol with
    | some callee => Emit.check callee.symbol.text
    | none =>
      let text ← Emit.check symbol.text
      throw (.fault (.missingFunction text))

def call (ctx : Context) (target : CallTarget) (arguments : List Register)
    (destination : Option Register) : Emit Code := do
  let pushes ← arguments.reverse.mapM fun r => return Instruction.push (← slotOf ctx r)
  let label ← callLabel ctx target
  let dropped := if arguments.isEmpty then [] else [Instruction.drop (4 * arguments.length)]
  let result ← match destination with
    | some r => do pure [Instruction.move d0 (← slotOf ctx r)]
    | none => pure []
  return code (pushes ++ [.call label] ++ dropped ++ result)

/-- Multiplies `d0` by the size of an element: by a shift, if the size has a whole logarithm. -/
def scaleIndex (size : Number) : Code :=
  match size.log2 with
  | .dyadic count 0 => if count = 0 then [] else code [.shiftBy .left count]
  | _ => code [.multiply false (.immediate size)]

def arrayIndex (ctx : Context) (base index destination : Register) : Emit Code := do
  let element ← Emit.check base.type.pointee
  let size ← Emit.check (element.sizeInBytes pointerBits)
  let offset ← slotOf ctx index
  let start ← slotOf ctx base
  let target ← slotOf ctx destination
  return code [.move offset d0] ++ scaleIndex size ++ code [.alu .add start .d0, .move d0 target]

def widthOf (type : Ty) : Checked Width := do
  let bytes ← type.sizeInBytes pointerBits
  if bytes = 1 then return .byte
  if bytes = 2 then return .word
  if bytes = 4 then return .long
  throw (.noMoveSize bytes)

def load (ctx : Context) (address destination : Register) : Emit Code := do
  let pointer ← slotOf ctx address
  let width ← Emit.check (widthOf destination.type)
  let fit ← Emit.check (normalize destination.type)
  let target ← slotOf ctx destination
  return code [.moveToAddress pointer, .moveQuick 0 .d0, .loadIndirect width] ++ fit
    ++ code [.move d0 target]

def store (ctx : Context) (address value : Register) : Emit Code := do
  let pointer ← slotOf ctx address
  let source ← slotOf ctx value
  let width ← Emit.check (widthOf value.type)
  return code [.moveToAddress pointer, .move source d0, .storeIndirect width]

def select (ctx : Context) : Operation → Emit Code
  | .loadImmediate value destination => do
    return code [.move (.immediate value) (← slotOf ctx destination)]
  | .move source target => do
    let operand ← slotOf ctx source
    return code [.move operand (← slotOf ctx target)]
  | .binary operator lhs rhs destination => arithmetic ctx operator lhs rhs destination
  | .compare comparison lhs rhs destination => compare ctx comparison lhs rhs destination
  | .testZero source negated destination => testZero ctx source negated destination
  | .convert source target => convert ctx source target
  | .step direction r => step ctx direction r
  | .label name => return [.label (ctx.label name)]
  | .goto name => return code [.branch (ctx.label name)]
  | .gotoIfFalse condition name => do
    return code [.test (← slotOf ctx condition), .branchIfEqual (ctx.label name)]
  | .call target arguments destination => call ctx target arguments destination
  | .ret register => do
    let value ← match register with
      | some r => do pure (code [.move (← slotOf ctx r) d0])
      | none => pure []
    return value ++ code [.unlink, .ret]
  | .addressOf symbol destination => do
    return code [.loadAddress symbol.text, .move .address (← slotOf ctx destination)]
  | .arrayIndex base index destination => arrayIndex ctx base index destination
  | .load address destination => load ctx address destination
  | .store address value => store ctx address value
  | .unknown node => throw (.fault (.unhandled node "statementTo68k"))

end Retarget.M68k
