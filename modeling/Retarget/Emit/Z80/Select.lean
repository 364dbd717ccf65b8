import Retarget.Emit.Line
import Retarget.Emit.Z80.Home
import Retarget.Emit.Z80.Instruction
import Retarget.Number.Logarithm

/-!
# Instruction selection for the Z80

Bytes are computed in `A`, words in `HL`, and values of four bytes in scratch memory that support routines
work on. Every intermediate instruction loads its operands from their homes and stores its result.
-/
namespace Retarget.Z80

abbrev Code := List (Line Instruction)

def code (instructions : List Instruction) : Code := instructions.map .plain

structure Context where
  program : Program
  name : String
  homes : Homes
  /-- The label of the shared exit; without one every return stands by itself. -/
  epilogue : Option String

def Context.label (ctx : Context) (name : String) : String := s!"{ctx.name}_{name}"

/-! ## Loads and stores -/

def Home.byte (home : Home) (i : Nat) : Place :=
  match home with
  | .frame offset => .frame (offset + i)
  | .static label => .static label i

def loadA (home : Home) : Code := code [.loadByte .a (home.byte 0)]

def storeA (home : Home) : Code := code [.storeByte (home.byte 0) .a]

/-- Loads a word into `HL`. The frame has no words, so these go through `DE`. -/
def loadHL (home : Home) (offset : Nat) : Code :=
  match home with
  | .frame _ => code [.loadByte .e (home.byte offset), .loadByte .d (home.byte (offset + 1)), .exchange]
  | .static _ => code [.loadWord .hl (home.byte offset)]

def loadDE (home : Home) : Code :=
  match home with
  | .frame _ => code [.loadByte .e (home.byte 0), .loadByte .d (home.byte 1)]
  | .static _ => code [.loadWord .de (home.byte 0)]

def storeHL (home : Home) (offset : Nat) : Code :=
  match home with
  | .frame _ => code [.exchange, .storeByte (home.byte offset) .e, .storeByte (home.byte (offset + 1)) .d]
  | .static _ => code [.storeWord (home.byte offset) .hl]

def copyFour (source target : Home) : Code :=
  [0, 1, 2, 3].flatMap fun i => code [.loadByte .a (source.byte i), .storeByte (target.byte i) .a]

def homeOf (ctx : Context) (r : Register) : Emit Home :=
  match ctx.homes.get? r.id with
  | some home => return home
  | none => throw (.fault (.noHome r.id ctx.name))

def sizeOfType (type : Ty) : Emit Size := Emit.check (sizeOf type)

/-- Scratch memory for the first operand and the result of operations on four bytes. -/
def accumulator : Emit Home := return .static (← Emit.useExternal "__acc32")

/-- Scratch memory for the second operand. -/
def operand : Emit Home := return .static (← Emit.useExternal "__arg32")

def callExternal (name : String) : Emit Code := return code [.call (← Emit.useExternal name)]

def callRoutineFor (operation : String) (type : Ty) : Emit Code := do
  callExternal (← Emit.check (routineFor operation type))

/-- Brings a register into `A`, `HL` or the accumulator. -/
def loadValue (ctx : Context) (r : Register) : Emit Code := do
  let home ← homeOf ctx r
  match ← sizeOfType r.type with
  | .one => return loadA home
  | .two => return loadHL home 0
  | .four => return copyFour home (← accumulator)

/-- Stores `A`, `HL` or the accumulator into a register. -/
def storeValue (ctx : Context) (r : Register) : Emit Code := do
  let home ← homeOf ctx r
  match ← sizeOfType r.type with
  | .one => return storeA home
  | .two => return storeHL home 0
  | .four => return copyFour (← accumulator) home

/-- Stores words at a home, one behind the other from an offset on. -/
def storeWords (home : Home) : List Number → Nat → Code
  | [], _ => []
  | word :: rest, offset =>
    code [.setWord .hl word] ++ storeHL home offset ++ storeWords home rest (offset + 2)

def loadImmediate (value : Number) (size : Size) (home : Home) : Code :=
  match size with
  | .one => code ((bytesOf value 1).map (.setByte .a)) ++ storeA home
  | _ => storeWords home (valueWords value (.ofNat size.bytes)) 0

/-! ## Comparisons -/

def materialize (ctx : Context) (condition : Condition) (destination : Register) : Emit Code := do
  let done := ctx.label (← Emit.makeLabel "cmp")
  let home ← homeOf ctx destination
  return code [.setByte .a 1, .jumpRelative condition done, .alu .xor .a] ++ [.label done] ++ storeA home

/-- A comparison as a test of one flag after a subtraction. -/
structure FlagTest where
  condition : Condition
  lhs : Register
  rhs : Register
  /-- Whether the order of the operands counts. -/
  ordered : Bool

/-- Greater, and less or equal, are tested with the operands exchanged. -/
def flagTest (comparison : Comparison) (lhs rhs : Register) : Checked FlagTest :=
  match comparison with
  | .eq => .ok ⟨.zero, lhs, rhs, false⟩
  | .ne => .ok ⟨.notZero, lhs, rhs, false⟩
  | .lt => .ok ⟨.carry, lhs, rhs, true⟩
  | .ge => .ok ⟨.noCarry, lhs, rhs, true⟩
  | .gt => .ok ⟨.carry, rhs, lhs, true⟩
  | .le => .ok ⟨.noCarry, rhs, lhs, true⟩
  | .other _ => .error (comparison.unhandled "normalizeComparison")

/-- Sets the flags for a comparison. Moving both operands by half the range makes a signed order an
unsigned one. -/
def compareFlags (ctx : Context) (test : FlagTest) (bias : Bool) : Emit Code := do
  match ← sizeOfType test.lhs.type with
  | .one =>
    let rhs ← homeOf ctx test.rhs
    let lhs ← homeOf ctx test.lhs
    let flip := code (if bias then [.flipSign] else [])
    return loadA rhs ++ flip ++ code [.copyByte .b .a] ++ loadA lhs ++ flip ++ code [.alu .compare .b]
  | .two =>
    let lhs ← homeOf ctx test.lhs
    let rhs ← homeOf ctx test.rhs
    let flip := code (if bias then
      [.copyByte .a .h, .flipSign, .copyByte .h .a, .copyByte .a .d, .flipSign, .copyByte .d .a] else [])
    return loadHL lhs 0 ++ loadDE rhs ++ flip ++ code [.alu .or .a, .subtractWithCarry]
  | .four =>
    let lhs := copyFour (← homeOf ctx test.lhs) (← accumulator)
    let rhs := copyFour (← homeOf ctx test.rhs) (← operand)
    return lhs ++ rhs ++ (← callRoutineFor "compare" test.lhs.type)

def compare (ctx : Context) (comparison : Comparison) (lhs rhs destination : Register) : Emit Code := do
  let test ← Emit.check (flagTest comparison lhs rhs)
  let bias ← if test.ordered then Emit.check test.lhs.type.isSigned else pure false
  let flags ← compareFlags ctx test bias
  return flags ++ (← materialize ctx test.condition destination)

def testZero (ctx : Context) (source : Register) (negated : Bool) (destination : Register) :
    Emit Code := do
  let home ← homeOf ctx source
  let flags := match ← sizeOfType source.type with
    | .one => loadA home ++ code [.alu .or .a]
    | .two => loadHL home 0 ++ code [.copyByte .a .h, .alu .or .l]
    | .four => loadA home ++ [1, 2, 3].flatMap fun i =>
        code [.copyByte .b .a, .loadByte .a (home.byte i), .alu .or .b]
  return flags ++ (← materialize ctx (if negated then .notZero else .zero) destination)

/-! ## Arithmetic -/

def aluOf? : Operator → Option Alu
  | .add => some .add
  | .subtract => some .subtract
  | .and => some .and
  | .or => some .or
  | .xor => some .xor
  | _ => none

def wordOperation (operator : Operator) (type : Ty) : Emit Code := do
  let bytewise (operation : Alu) : Code := code
    [.copyByte .a .l, .alu operation .e, .copyByte .l .a, .copyByte .a .h, .alu operation .d, .copyByte .h .a]
  match operator with
  | .add => return code [.addWord .hl .de]
  | .subtract => return code [.alu .or .a, .subtractWithCarry]
  | .and => return bytewise .and
  | .or => return bytewise .or
  | .xor => return bytewise .xor
  | _ => callRoutineFor operator.name type

def arithmetic (ctx : Context) (operator : Operator) (lhs rhs destination : Register) : Emit Code := do
  let type := destination.type
  let lhs ← homeOf ctx lhs
  let rhs ← homeOf ctx rhs
  let target ← homeOf ctx destination
  match ← sizeOfType type with
  | .one =>
    let operation ← match aluOf? operator, operator.stray? with
      | some operation, _ => pure (code [.alu operation .b])
      | none, some stray => pure (code [.directive stray])
      | none, none => callRoutineFor operator.name type
    return loadA rhs ++ code [.copyByte .b .a] ++ loadA lhs ++ operation ++ storeA target
  | .two => return loadHL lhs 0 ++ loadDE rhs ++ (← wordOperation operator type) ++ storeHL target 0
  | .four =>
    let first ← accumulator
    let second ← operand
    let call ← callRoutineFor operator.name type
    return copyFour lhs first ++ copyFour rhs second ++ call ++ copyFour first target

def step (ctx : Context) (direction : Direction) (r : Register) : Emit Code := do
  let type := r.type
  if !type.isNumeric then
    let text ← Emit.check type.text
    throw (.fault (.stepOf direction.name text))
  let home ← homeOf ctx r
  let up := direction = .increment
  match ← sizeOfType type with
  | .one =>
    -- one does not fit in a byte that is all fraction, so stepping changes nothing
    if type.one = 1 then
      return loadA home ++ code [if up then .incrementByte .a else .decrementByte .a] ++ storeA home
    else return []
  | .two =>
    if type.one = 1 then
      return loadHL home 0 ++ code [if up then .incrementWord else .decrementWord] ++ storeHL home 0
    else if type.one = 256 then
      return loadHL home 0 ++ code [if up then .incrementByte .h else .decrementByte .h] ++ storeHL home 0
    else return []
  | .four =>
    let first ← accumulator
    let second ← operand
    let call ← callRoutineFor (if up then "add" else "subtract") type
    return copyFour home first ++ loadImmediate (.ofNat type.one) .four second ++ call
      ++ copyFour first home

def convert (ctx : Context) (source target : Register) : Emit Code := do
  let load ← loadValue ctx source
  let call ←
    if isBitPreserving source.type target.type then pure []
    else do callExternal (← Emit.check (conversionRoutine source.type target.type))
  return load ++ call ++ (← storeValue ctx target)

/-! ## Calls -/

def callRoutine (ctx : Context) (routine : Routine) (arguments : List Register) : Emit Code := do
  let loads ← arguments.mapM (loadValue ctx)
  return loads.flatten ++ (← callExternal routine.name)

/-- Writes arguments into the slots of a procedure. -/
def patchSlots (ctx : Context) (callee : Procedure) (name : String) :
    List (Parameter × Register) → Emit Code
  | [] => return []
  | (p, argument) :: rest => do
    let home ← homeOf ctx argument
    let patch ← match ← sizeOfType argument.type with
      | .one => do
        let label ← Emit.check (slotLabel callee p)
        pure (loadA home ++ [.code (.storeByte (.static label 0) .a) s!"Patch {p.name}"])
      | .two => do
        let label ← Emit.check (slotLabel callee p)
        pure (loadHL home 0 ++ [.code (.storeWord (.static label 0) .hl) s!"Patch {p.name}"])
      | .four => Emit.refuse s!"can't patch {p.name} of {name}: SMC slots hold at most 16 bits"
    return patch ++ (← patchSlots ctx callee name rest)

def pushFrom (home : Home) : Size → Code
  | .one => loadA home ++ code [.copyByte .l .a, .push .hl]
  | .two => loadHL home 0 ++ code [.push .hl]
  | .four => loadHL home 2 ++ code [.push .hl] ++ loadHL home 0 ++ code [.push .hl]

/-- Pushes arguments in the given order; gives the bytes pushed as well. -/
def pushArguments (ctx : Context) : List Register → Emit (Code × Nat)
  | [] => return ([], 0)
  | argument :: rest => do
    let home ← homeOf ctx argument
    let size ← sizeOfType argument.type
    let (pushes, bytes) ← pushArguments ctx rest
    return (pushFrom home size ++ pushes, pushedBytes size + bytes)

def dropArguments (words : Nat) : Code :=
  (List.range words).map fun i => .code (.pop .bc) (if i = 0 then "Drop arguments" else "")

def callFunction (ctx : Context) (symbol : Symbol) (arguments : List Register)
    (destination : Option Register) : Emit Code := do
  match ctx.program.find? symbol with
  | none =>
    let text ← Emit.check symbol.text
    throw (.fault (.missingFunction text))
  | some callee =>
    let name ← Emit.check callee.symbol.text
    let result ← match destination with
      | some r => storeValue ctx r
      | none => pure []
    match callee.convention with
    | .smc =>
      let patches ← patchSlots ctx callee name (callee.parameters.zip arguments)
      return patches ++ code [.call name] ++ result
    | .standard =>
      let (pushes, bytes) ← pushArguments ctx arguments.reverse
      return pushes ++ code [.call name] ++ dropArguments (bytes / 2) ++ result

/-! ## Memory -/

/-- Multiplies `HL` by the size of an element: by doubling, if the size has a whole logarithm. -/
def scaleIndex (size : Number) : Emit Code :=
  match size.log2 with
  | .dyadic count 0 => return code (List.replicate count.toNat (.addWord .hl .hl))
  | _ => return code [.setWord .de size] ++ (← callExternal "__multiply_u16")

def arrayIndex (ctx : Context) (base index destination : Register) : Emit Code := do
  let element ← Emit.check base.type.pointee
  let size ← Emit.check (element.sizeInBytes pointerBits)
  let home ← homeOf ctx index
  let load := match ← sizeOfType index.type with
    | .one => loadA home ++ code [.copyByte .l .a, .setByte .h 0]
    | _ => loadHL home 0
  let scale ← scaleIndex size
  let baseHome ← homeOf ctx base
  let target ← homeOf ctx destination
  return load ++ scale ++ code [.push .hl] ++ loadHL baseHome 0 ++ code [.pop .de, .addWord .hl .de]
    ++ storeHL target 0

def load (ctx : Context) (address destination : Register) : Emit Code := do
  let target ← homeOf ctx destination
  let pointer := loadHL (← homeOf ctx address) 0
  match ← sizeOfType destination.type with
  | .one => return pointer ++ code [.loadIndirect .a] ++ storeA target
  | .two =>
    return pointer ++ code [.loadIndirect .e, .incrementWord, .loadIndirect .d, .exchange]
      ++ storeHL target 0
  | .four =>
    let name ← Emit.useExternal "__acc32"
    return pointer ++ code [.setLabel .de name, .setWord .bc 4, .copyBlock]
      ++ copyFour (.static name) target

def store (ctx : Context) (address value : Register) : Emit Code := do
  let source ← homeOf ctx value
  let pointer ← homeOf ctx address
  match ← sizeOfType value.type with
  | .one => return loadHL pointer 0 ++ loadA source ++ code [.storeIndirect .a]
  | .two =>
    return loadHL source 0 ++ code [.push .hl] ++ loadHL pointer 0
      ++ code [.pop .de, .storeIndirect .e, .incrementWord, .storeIndirect .d]
  | .four =>
    let name ← Emit.useExternal "__acc32"
    return copyFour source (.static name) ++ loadHL pointer 0
      ++ code [.exchange, .setLabel .hl name, .setWord .bc 4, .copyBlock]

/-! ## Instructions -/

def select (ctx : Context) : Operation → Emit Code
  | .loadImmediate value destination => do
    let size ← sizeOfType destination.type
    return loadImmediate value size (← homeOf ctx destination)
  | .move source target => return (← loadValue ctx source) ++ (← storeValue ctx target)
  | .binary operator lhs rhs destination => arithmetic ctx operator lhs rhs destination
  | .compare comparison lhs rhs destination => compare ctx comparison lhs rhs destination
  | .testZero source negated destination => testZero ctx source negated destination
  | .convert source target => convert ctx source target
  | .step direction r => step ctx direction r
  | .label name => return [.label (ctx.label name)]
  | .goto name => return code [.jump (ctx.label name)]
  | .gotoIfFalse condition name => do
    return loadA (← homeOf ctx condition) ++ code [.alu .or .a, .jumpIfZero (ctx.label name)]
  | .call (.routine routine) arguments _ => callRoutine ctx routine arguments
  | .call (.function symbol) arguments destination => callFunction ctx symbol arguments destination
  | .ret register => do
    let value ← match register with
      | some r => loadValue ctx r
      | none => pure []
    return value ++ code [match ctx.epilogue with
      | some label => .jump label
      | none => .ret]
  | .addressOf symbol destination => do
    return code [.setLabel .hl symbol.text] ++ storeHL (← homeOf ctx destination) 0
  | .arrayIndex base index destination => arrayIndex ctx base index destination
  | .load address destination => load ctx address destination
  | .store address value => store ctx address value
  | .unknown node => throw (.fault (.unhandled node "statementToZ80"))

end Retarget.Z80
