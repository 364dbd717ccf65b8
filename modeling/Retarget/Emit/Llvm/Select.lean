import Retarget.Emit.Llvm.Instruction
import Retarget.Emit.Llvm.Storage
import Retarget.Emit.Session

/-!
# Instruction selection for LLVM

An intermediate instruction becomes a few instructions that each define a new name. Reading a register in
a slot loads it into a temporary; writing it stores one.
-/
namespace Retarget.Llvm

structure Context where
  program : Program
  storages : Storages

/-- Emission of the instructions for one intermediate instruction. -/
abbrev Select := StateT (List Instruction) Emit

namespace Select

def check {α : Type} (result : Checked α) : Select α := StateT.lift (Emit.check result)

def fault {α : Type} (fault : Fault) : Select α := StateT.lift (throw (.fault fault))

def write (instruction : Instruction) : Select Unit := modify (· ++ [instruction])

end Select

open Select

def temporary (expression : Expression) : Select Operand := do
  let name := Name.temporary (← StateT.lift Emit.nextNumber)
  write (.define name expression)
  return .name name

def storageOf (ctx : Context) (r : Register) : Select Storage :=
  match ctx.storages.get? r.id with
  | some storage => return storage
  | none => fault (.notClassified r.id)

def slotOf (r : Register) : Operand := .name (.slot r.id)

def use (ctx : Context) (r : Register) : Select Operand := do
  match ← storageOf ctx r with
  | .constant text => return .constant text
  | .value => return .name (.value r.id)
  | .slot => temporary (.load (← check (typeText r.type)) (slotOf r))

/-- Gives a register a value. A constant is written where it is used. -/
def define (ctx : Context) (r : Register) (expression : Expression) : Select Unit := do
  match ← storageOf ctx r with
  | .constant _ => return
  | .value => write (.define (.value r.id) expression)
  | .slot =>
    let type ← check (typeText r.type)
    write (.store type (← temporary expression) (slotOf r))

/-- Stores a constant, if the register has a slot. -/
def defineConstant (ctx : Context) (r : Register) (type text : Checked String) : Select Unit := do
  match ← storageOf ctx r with
  | .slot =>
    let type ← check type
    write (.store type (.constant (← check text)) (slotOf r))
  | _ => return

/-! ## Arithmetic -/

def number (n : Nat) : Operand := .constant n.repr

def widen (type : Ty) (value : Operand) : Select Operand := do
  let mnemonic := if ← check type.isSigned then "sext" else "zext"
  temporary (.cast mnemonic (← check (typeText type)) value "i64")

def plainMnemonic? (operator : Operator) : Option String :=
  match operator with
  | .add => some "add"
  | .subtract => some "sub"
  | .multiply => some "mul"
  | .and => some "and"
  | .or => some "or"
  | .xor => some "xor"
  | _ => operator.stray?

/-- Multiplies or divides fixed-point numbers in 64 bits. -/
def fixedPoint (divides : Bool) (type : Ty) (shift : Nat) (lhs rhs : Operand) : Select Expression := do
  let a ← widen type lhs
  let b ← widen type rhs
  let wide ←
    if divides then do
      let scaled ← temporary (.binary "shl" "i64" a (number shift))
      temporary (.binary "sdiv" "i64" scaled b)
    else do
      let product ← temporary (.binary "mul" "i64" a b)
      temporary (.binary "ashr" "i64" product (number shift))
  return .cast "trunc" "i64" wide (← check (typeText type))

/-- A shift. A count as large as the width has no result of its own, so another one is selected. -/
def shift (mnemonic text : String) (bits : Nat) (keepsSign : Bool) (lhs rhs : Operand) :
    Select Expression := do
  let inRange ← temporary (.compare "ult" text rhs (number bits))
  let shifted ← temporary (.binary mnemonic text lhs rhs)
  let saturated ←
    if keepsSign then temporary (.binary "ashr" text lhs (.constant ((bits : Int) - 1).repr))
    else pure (.constant "0")
  return .select inRange text shifted saturated

def signedOperation (operator : Operator) (text : String) (bits : Nat) (signed : Bool)
    (lhs rhs : Operand) : Select Expression :=
  match operator with
  | .divide => return .binary (if signed then "sdiv" else "udiv") text lhs rhs
  | .modulo => return .binary (if signed then "srem" else "urem") text lhs rhs
  | .shiftLeft => shift "shl" text bits false lhs rhs
  | .shiftRight => shift (if signed then "ashr" else "lshr") text bits signed lhs rhs
  | _ => fault (.operatorNotHandled operator.name)

def binaryOperation (operator : Operator) (type : Ty) (lhs rhs : Operand) : Select Expression := do
  let text ← check (typeText type)
  match ← check type.valueBits with
  | none => fault .arithmeticOnPointer
  | some bits =>
    let signed ← check type.isSigned
    match type, operator with
    | .fixed encoding, .multiply => fixedPoint false type encoding.shift lhs rhs
    | .fixed encoding, .divide => fixedPoint true type encoding.shift lhs rhs
    | _, _ =>
      match plainMnemonic? operator with
      | some mnemonic => return .binary mnemonic text lhs rhs
      | none => signedOperation operator text bits signed lhs rhs

def predicateFor (comparison : Comparison) (signed : Bool) : Checked String :=
  let sign := if signed then "s" else "u"
  match comparison with
  | .eq => .ok "eq"
  | .ne => .ok "ne"
  | .lt => .ok s!"{sign}lt"
  | .le => .ok s!"{sign}le"
  | .gt => .ok s!"{sign}gt"
  | .ge => .ok s!"{sign}ge"
  | .other _ => .error (comparison.unhandled "predicate")

def zero : Ty → Operand
  | .pointer _ => .constant "null"
  | .boolean => .constant "false"
  | _ => .constant "0"

def conversion (source target : Ty) (value : Operand) : Select Expression := do
  if target = .boolean then
    return .compare "ne" (← check (typeText source)) value (zero source)
  if target.isPointer || source.isPointer then return .cast "bitcast" "ptr" value "ptr"
  let wide ← widen source value
  let wide ←
    if source.shift < target.shift then
      temporary (.binary "shl" "i64" wide (number (target.shift - source.shift)))
    else if target.shift < source.shift then
      temporary (.binary "ashr" "i64" wide (number (source.shift - target.shift)))
    else pure wide
  return .cast "trunc" "i64" wide (← check (typeText target))

/-! ## Calls -/

def argument (ctx : Context) (r : Register) : Select (String × Operand) := do
  let type ← check (typeText r.type)
  return (type, ← use ctx r)

def callee (ctx : Context) (target : CallTarget) : Select (String × String) := do
  match target with
  | .routine routine =>
    let name ← StateT.lift (Emit.useExternal routine.name)
    return ("@" ++ name, "void")
  | .function symbol =>
    match ctx.program.find? symbol with
    | some p =>
      let name ← check p.symbol.text
      return ("@" ++ name, ← check (typeText p.returnType))
    | none => fault (.missingFunction (← check symbol.text))

def call (ctx : Context) (target : CallTarget) (arguments : List Register)
    (destination : Option Register) : Select Unit := do
  let arguments ← arguments.mapM (argument ctx)
  let (name, returnType) ← callee ctx target
  match destination with
  | some r => define ctx r (.call returnType name arguments)
  | none => write (.evaluate (.call returnType name arguments))

/-! ## Instructions -/

def step (ctx : Context) (direction : Direction) (r : Register) : Select Unit := do
  let type := r.type
  if !type.isNumeric then
    fault (.stepOf direction.name (← check type.text))
  let value ← use ctx r
  let amount ← check (type.wrap (.ofNat type.one))
  let mnemonic := match direction with
    | .increment => "add"
    | .decrement => "sub"
  define ctx r (.binary mnemonic (← check (typeText type)) value (.constant amount.text))

/-- A jump that is taken if the condition does not hold. Control has to go on somewhere if it does. -/
def branchUnless (ctx : Context) (condition : Register) (label : String) (next : Option String) :
    Select Unit := do
  match next with
  | none | some "" => fault (.conditionalAtEnd label)
  | some following => write (.branchIf (← use ctx condition) following label)

def arrayIndex (ctx : Context) (base index destination : Register) : Select Unit := do
  let start ← use ctx base
  let offset ← widen index.type (← use ctx index)
  let element ← check base.type.pointee
  define ctx destination (.elementAddress (← check (typeText element)) start offset)

/-- The code of an intermediate instruction, in a block that the one with the label `next` follows. -/
def select (ctx : Context) (next : Option String) : Operation → Select Unit
  | .loadImmediate value destination =>
    defineConstant ctx destination (typeText destination.type) (literal value destination.type)
  | .move source target => do
    let value ← use ctx source
    write (.store (← check (typeText target.type)) value (slotOf target))
  | .binary operator lhs rhs destination => do
    let first ← use ctx lhs
    let second ← use ctx rhs
    define ctx destination (← binaryOperation operator destination.type first second)
  | .compare comparison lhs rhs destination => do
    let first ← use ctx lhs
    let second ← use ctx rhs
    let predicate ← check (predicateFor comparison (← check lhs.type.isSigned))
    define ctx destination (.compare predicate (← check (typeText lhs.type)) first second)
  | .testZero source negated destination => do
    let value ← use ctx source
    let type ← check (typeText source.type)
    define ctx destination (.compare (if negated then "ne" else "eq") type value (zero source.type))
  | .convert source target => do
    let value ← use ctx source
    define ctx target (← conversion source.type target.type value)
  | .step direction r => step ctx direction r
  | .label _ => return
  | .goto label => write (.branch label)
  | .gotoIfFalse condition label => branchUnless ctx condition label next
  | .call target arguments destination => call ctx target arguments destination
  | .ret (some r) => do
    let type ← check (typeText r.type)
    write (.ret type (← use ctx r))
  | .ret none => write .retVoid
  | .addressOf symbol destination =>
    defineConstant ctx destination (.ok "ptr") (.ok (symbolText symbol))
  | .arrayIndex base index destination => arrayIndex ctx base index destination
  | .load address destination => do
    let pointer ← use ctx address
    define ctx destination (.load (← check (typeText destination.type)) pointer)
  | .store address value => do
    let pointer ← use ctx address
    let stored ← use ctx value
    write (.store (← check (typeText value.type)) stored pointer)
  | .unknown node => fault (.unhandled node "statementToSsa")

def selected (ctx : Context) (next : Option String) (operation : Operation) : Emit (List Instruction) := do
  let (_, instructions) ← (select ctx next operation).run []
  return instructions

end Retarget.Llvm
