import Retarget.Run.Arithmetic
import Retarget.Run.Memory

/-!
# The machine that runs intermediate code

The machine executes one instruction at a time. Its state is the procedure being executed with its
registers, the procedures waiting for it to return, and the world that all of them share. A limit on the
number of instructions is the only bound on a run, so a run is a recursion on the cycles left.
-/
namespace Retarget

structure World where
  memory : Memory
  /-- Code units printed so far, the newest first. -/
  printed : List UInt16
  cycles : Nat
  callDepth : Nat
  maxCallDepth : Nat
deriving Repr

namespace World

def output (w : World) : List UInt16 := w.printed.reverse

def print (w : World) (units : List UInt16) : World := { w with printed := units.reverse ++ w.printed }

end World

def Program.initialWorld (p : Program) : World := ⟨p.initialMemory, [], 0, 0, 0⟩

structure Activation where
  procedure : Procedure
  position : Nat
  registers : Assoc Numeral Value
deriving Repr

/-- A procedure that waits for the one it called. -/
structure Suspended where
  activation : Activation
  callee : Symbol
  destination : Option Register
deriving Repr

structure Machine where
  world : World
  active : Activation
  /-- The innermost first. -/
  callers : List Suspended
deriving Repr

namespace Activation

def get (a : Activation) (r : Register) : Except Stop Value := do
  match a.registers.get? r.id with
  | some value => return value
  | none => throw (.failure (.uninitialized r.id (← a.procedure.symbol.text.step)))

def getNumber (a : Activation) (r : Register) : Except Stop Number := do
  match ← a.get r with
  | .number value => return value
  | .pointer .. | .null => throw (.failure (.holdsPointer r.id))

/-- The pointer in a register, null included. -/
def getPointer (a : Activation) (r : Register) : Except Stop Value := do
  match ← a.get r with
  | .number _ => throw (.failure (.holdsNumber r.id))
  | pointer => return pointer

/-- The place that the pointer in a register leads to. -/
def getPlace (a : Activation) (r : Register) : Except Stop (String × Number) := do
  match ← a.getPointer r with
  | .pointer block offset => return (block, offset)
  | _ => throw (.failure (.noBlock "null"))

def set (a : Activation) (r : Register) (value : Value) : Activation :=
  { a with registers := a.registers.set r.id value }

/-- Sets a register to what was read, or leaves it unassigned if nothing was there. -/
def assign (a : Activation) (r : Register) : Option Value → Activation
  | some value => a.set r value
  | none => { a with registers := a.registers.erase r.id }

def truth (holds : Bool) : Value := .number (if holds then 1 else 0)

def jump (a : Activation) (label : String) : Except Stop Activation := do
  match a.procedure.instructions.findIdx? (·.operation.labels label) with
  | some position => return { a with position }
  | none => throw (.fault (.missingLabel label (← a.procedure.symbol.text.step)))

/-- Executes an operation that neither calls nor returns. -/
def execute (a : Activation) (memory : Memory) (operation : Operation) :
    Except Stop (Activation × Memory) := do
  match operation with
  | .loadImmediate value destination => return (a.set destination (.number value), memory)
  | .move source target => return (a.set target (← a.get source), memory)
  | .binary operator lhs rhs destination =>
    let x ← a.getNumber lhs
    let y ← a.getNumber rhs
    return (a.set destination (.number (← evaluateBinary operator destination.type x y)), memory)
  | .compare comparison lhs rhs destination =>
    let x ← a.get lhs
    let y ← a.get rhs
    return (a.set destination (truth (← evaluateComparison comparison x y)), memory)
  | .testZero source negated destination =>
    let isZero := match ← a.get source with
      | .number value => value.isZero
      | _ => false
    return (a.set destination (truth (isZero != negated)), memory)
  | .convert source target =>
    if target.type.isPointer then
      return (a.set target (← a.getPointer source), memory)
    else
      let value ← a.getNumber source
      return (a.set target (.number (← (evaluateConversion value source.type target.type).step)), memory)
  | .step direction register =>
    if !register.type.isNumeric then
      throw (.fault (.stepOf direction.name (← register.type.text.step)))
    let operator := match direction with
      | .increment => .add
      | .decrement => .subtract
    let value ← a.getNumber register
    let result ← evaluateBinary operator register.type value (.ofNat register.type.one)
    return (a.set register (.number result), memory)
  | .label _ => return (a, memory)
  | .goto label => return (← a.jump label, memory)
  | .gotoIfFalse condition label =>
    if (← a.getNumber condition).isZero then return (← a.jump label, memory)
    return (a, memory)
  | .addressOf symbol destination => return (a.set destination (.pointer symbol.text 0), memory)
  | .arrayIndex base index destination =>
    let (block, offset) ← a.getPlace base
    let distance ← a.getNumber index
    return (a.set destination (.pointer block (offset.add distance)), memory)
  | .load address destination =>
    let (block, offset) ← a.getPlace address
    match memory.read block offset with
    | .ok value => return (a.assign destination value, memory)
    | .error failure => throw (.failure failure)
  | .store address value =>
    let (block, offset) ← a.getPlace address
    let stored ← a.get value
    match memory.write block offset stored with
    | .ok memory => return (a, memory)
    | .error failure => throw (.failure failure)
  | .call .. | .ret _ => return (a, memory)
  | .unknown node => throw (.fault (.unhandled node "interpretFunction"))

end Activation

/-! ## Printing -/

/-- The units of `count` cells of a string's data from the cell of the given number on, up to the first
that holds none. -/
def stringUnits (memory : Memory) (block : String) (offset : Number) :
    Nat → Nat → List UInt16 × Option Failure
  | _, 0 => ([], none)
  | i, count + 1 =>
    match memory.read block (offset.advance i) with
    | .error failure => ([], some failure)
    | .ok (some (.number unit)) =>
      let (units, failure) := stringUnits memory block offset (i + 1) count
      ((unit.word 16).toNat.toUInt16 :: units, failure)
    | .ok _ => ([], some .pointerInString)

/-- What printing the string record at an address prints. -/
def printedString (memory : Memory) (block : String) (offset : Number) :
    List UInt16 × Option Failure :=
  match memory.read block offset with
  | .error failure => ([], some failure)
  | .ok length =>
    match memory.read block (offset.add 1) with
    | .error failure => ([], some failure)
    | .ok data =>
      match length, data with
      | some (.number length), some (.pointer block offset) =>
        stringUnits memory block offset 0 length.below
      | some (.number _), some (.number _) => ([], some .malformedString)
      -- there is no data, which an empty string does without
      | some (.number length), _ => ([], if length.below = 0 then none else some .malformedString)
      | _, _ => ([], some .malformedString)

/-- What a call of a support routine prints, and how it went wrong if it did. -/
def Routine.print (routine : Routine) (memory : Memory) (arguments : List Value) :
    List UInt16 × Option Stop :=
  let withNumber (f : Number → List UInt16) : List UInt16 × Option Stop :=
    match arguments with
    | .number value :: _ => (f value, none)
    | _ => ([], some (.failure (.expectsNumber routine.name)))
  match routine with
  | .printChar => withNumber fun value => [(value.word 16).toNat.toUInt16]
  | .printU8 | .printU16 | .printU24 | .printU32 | .printI8 | .printI16 | .printI24 | .printI32 =>
    withNumber fun value => Text.units value.text
  | .printBool =>
    withNumber fun value =>
      Text.units (if value.isZero || value == .nan then "false" else "true")
  | .printNewline => (Text.units "\n", none)
  | .printString =>
    match arguments with
    | .pointer block offset :: _ =>
      let (units, failure) := printedString memory block offset
      (units, failure.map .failure)
    | _ => ([], some (.failure (.expectsPointer routine.name)))
  | .other name => ([], some (.fault (.unhandled (Text.quote name) "printRuntime")))

/-! ## Steps -/

inductive Ending where
  | returned (value : Option Value) (world : World)
  | failed (failure : Failure) (world : World)
  | faulted (fault : Fault)
deriving Repr

def Ending.stopped (world : World) : Stop → Ending
  | .failure failure => .failed failure world
  | .fault fault => .faulted fault

inductive Progress where
  | running (machine : Machine)
  | ended (ending : Ending)
deriving Repr

namespace Machine

def enter (procedure : Procedure) (arguments : List Value) (world : World) (callers : List Suspended) :
    Except Stop Machine := do
  if arguments.length ≠ procedure.parameters.length then
    let symbol ← procedure.symbol.text.step
    throw (.failure (.wrongArity symbol procedure.parameters.length arguments.length))
  let depth := world.callDepth + 1
  let registers := Assoc.ofPairs (procedure.parameterIds.zip arguments)
  return {
    world := { world with callDepth := depth, maxCallDepth := max world.maxCallDepth depth }
    active := { procedure, position := 0, registers }
    callers }

/-- What is returned with a value; null is no value. -/
def returned : Value → Option Value
  | .null => none
  | value => some value

def leave (value : Option Value) (world : World) : List Suspended → Except Stop Progress
  | [] => return .ended (.returned value world)
  | caller :: callers => do
    match caller.destination with
    | none => return .running ⟨world, caller.activation, callers⟩
    | some destination =>
      match value with
      | none => throw (.failure (.noValue (← caller.callee.text.step)))
      | some value => return .running ⟨world, caller.activation.set destination value, callers⟩

def execute (program : Program) (m : Machine) (operation : Operation) : Progress :=
  let result : Except Stop Progress := do
    match operation with
    | .call target arguments destination =>
      let values ← arguments.mapM m.active.get
      match target with
      | .routine routine =>
        let (units, stop) := routine.print m.world.memory values
        let world := m.world.print units
        match stop with
        | some stop => return .ended (.stopped world stop)
        | none => return .running { m with world }
      | .function symbol =>
        match program.find? symbol with
        | none => throw (.fault (.missingFunction (← symbol.text.step)))
        | some procedure =>
          let caller := ⟨m.active, procedure.symbol, destination⟩
          return .running (← enter procedure values m.world (caller :: m.callers))
    | .ret register =>
      let world := { m.world with callDepth := m.world.callDepth - 1 }
      match register with
      | none => leave none world m.callers
      | some register => leave (returned (← m.active.get register)) world m.callers
    | operation =>
      let (active, memory) ← m.active.execute m.world.memory operation
      return .running { m with world := { m.world with memory }, active }
  match result with
  | .ok progress => progress
  | .error stop => .ended (.stopped m.world stop)

def next? (m : Machine) : Option Instruction :=
  m.active.procedure.instructions[m.active.position]?

/-- The machine with one more cycle spent, and past the instruction that it is spent on. -/
def tick (m : Machine) : Machine :=
  { m with
    world := { m.world with cycles := m.world.cycles + 1 }
    active := { m.active with position := m.active.position + 1 } }

/-- The world after a cycle that the limit does not allow. -/
def overrun (m : Machine) : World := { m.world with cycles := m.world.cycles + 1 }

/-- Runs to the end, or until no cycles are left. A counter of cycles that is a number agrees with this below 2 ^ 53,
where it stands still and passes no limit any more. -/
def run (program : Program) (limit : Number) : Nat → Machine → Ending
  | cycles, m =>
    match m.next? with
    | none =>
      match m.active.procedure.symbol.text with
      | .ok symbol => .failed (.ranPast symbol) m.world
      | .error fault => .faulted fault
    | some instruction =>
      match cycles with
      | 0 => .failed (.exceeded limit) m.overrun
      | cycles + 1 =>
        match m.tick.execute program instruction.operation with
        | .running m => run program limit cycles m
        | .ended ending => ending

end Machine

/-! ## Whole runs -/

inductive RunResult where
  | finished (value : Option Value) (output : List UInt16) (cycles maxCallDepth : Nat)
  | failed (failure : Failure) (output : List UInt16)
deriving DecidableEq, Repr

/-- How many cycles a limit allows. One that is not finite allows any number of them, for which a bound stands that is
out of reach; a run that came to it would be cut off all the same. -/
def cyclesAllowed (limit : Number) : Nat :=
  match limit with
  | .dyadic .. => limit.toCount
  | .infinite true => 0
  | _ => twoTo 1024

/-- What an end of a run gives; a fault gives nothing. -/
def Ending.result : Ending → Checked RunResult
  | .returned value world => .ok (.finished value world.output world.cycles world.maxCallDepth)
  | .failed failure world => .ok (.failed failure world.output)
  | .faulted fault => .error fault

def Program.runFunction (p : Program) (symbol : Symbol) (arguments : List Value) (limit : Number) :
    Checked RunResult := do
  match p.find? symbol with
  | none => return .failed (.noFunction (← symbol.text)) []
  | some procedure =>
    match Machine.enter procedure arguments p.initialWorld [] with
    | .ok machine => (machine.run p limit (cyclesAllowed limit)).result
    | .error stop => (Ending.stopped p.initialWorld stop).result

def Program.mainSymbol (p : Program) : Symbol := ⟨p.module, "main", []⟩

def Program.runMain (p : Program) (limit : Number) : Checked RunResult := p.runFunction p.mainSymbol [] limit

end Retarget
