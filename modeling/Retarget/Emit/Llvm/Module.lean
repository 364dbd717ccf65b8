import Retarget.Emit.Line
import Retarget.Emit.Llvm.Select

/-!
# LLVM files

A file has the string literals, the global variables, declarations of the printing routines in use and
the functions. A main function is wrapped so that the system can start it.
-/
namespace Retarget.Llvm

abbrev Code := List (Line Instruction)

/-! ## Functions -/

def blockLabels (blocks : List BasicBlock) : List String :=
  blocks.zipIdx.map fun (block, index) => block.name.getD s!"bb{index}"

def selectAll (ctx : Context) (next : Option String) : List Retarget.Instruction → Emit Code
  | [] => return []
  | i :: rest => do
    let instructions ← selected ctx next i.operation
    return Line.withWhy i.why (instructions.map .plain) ++ (← selectAll ctx next rest)

def fallThrough (next : Option String) : Instruction :=
  match next with
  | none | some "" => .unreachable
  | some label => .branch label

def endsItself (instructions : List Retarget.Instruction) : Bool :=
  match instructions.getLast? with
  | some i => i.operation.blockRole = .ends
  | none => false

def blockCode (ctx : Context) (block : BasicBlock) (label : String) (next : Option String) :
    Emit Code := do
  let body ← selectAll ctx next block.instructions
  let exit : Code := if endsItself block.instructions then [] else [.plain (fallThrough next)]
  return [.label label] ++ body ++ exit

def blocksCode (ctx : Context) : List (BasicBlock × String) → Emit Code
  | [] => return []
  | (block, label) :: rest => do
    let code ← blockCode ctx block label (rest.head?.map Prod.snd)
    return code ++ (← blocksCode ctx rest)

def allocations (ctx : Context) (registers : List Register) : Checked Code := do
  let slots := registers.filter fun r => ctx.storages.get? r.id = some .slot
  slots.mapM fun r => return .plain (.define (.slot r.id) (.allocate (← typeText r.type)))

def spills (p : Procedure) : Checked Code :=
  p.parameters.mapM fun q => do
    let id := q.register.id
    return .code (.store (← typeText q.register.type) (.name (.argument id)) (.name (.slot id)))
      s!"Parameter {q.name}"

def signature (p : Procedure) (parameters : List String) : Checked String := do
  let returnType ← typeText p.returnType
  return "define " ++ returnType ++ " @" ++ (← p.symbol.text) ++ "(" ++ Text.join ", " parameters
    ++ ") \x7b"

def procedureCode (program : Program) (p : Procedure) : Emit Code := do
  let graph ← Emit.check (FlowGraph.ofInstructions p.instructions)
  let storages ← Emit.check (classify p graph.blocks)
  let ctx : Context := ⟨program, storages⟩
  let labels := blockLabels graph.blocks
  let parameters ← Emit.check (p.parameters.mapM fun q => do
    return (← typeText q.register.type) ++ " " ++ (Name.argument q.register.id).text)
  let allocated ← Emit.check (allocations ctx p.registers)
  let spilled ← Emit.check (spills p)
  let head ← Emit.check (signature p parameters)
  let start : Instruction := match labels with
    | first :: _ => .branch first
    | [] => .unreachable
  let body ← blocksCode ctx (graph.blocks.zip labels)
  return [.raw head, .label "entry"] ++ allocated ++ spilled ++ [.plain start] ++ body ++ [.raw "\x7d"]

/-! ## Data -/

/-- A character of a string constant, by the low byte of its first unit: printable ones stand for
themselves, the others are two hexadecimal digits. -/
def escapeChar (c : Char) : List Char :=
  let byte := ((Text.charUnits c).headD 0).toNat % 256
  if 0x20 ≤ byte && byte < 0x7f && c != '"' && c != '\\' then [c]
  else '\\' :: (Text.hex 2 byte).toList

def escape (s : String) : String := String.ofList (s.toList.flatMap escapeChar)

def literalText (s : StringLiteral) : String :=
  let length := (Text.length s.value).repr
  "@" ++ s.name ++ ".data = private constant [" ++ length ++ " x i8] c\"" ++ escape s.value ++ "\"\n"
    ++ "@" ++ s.name ++ " = private constant %String \x7b i16 " ++ length ++ ", ptr @" ++ s.name
    ++ ".data \x7d"

/-- The constant of a number at a type; for an array, one whose first element holds it. -/
def scalarConstant (value : Number) : Ty → Checked String
  | .array of length => do
    let first ← scalarConstant value of
    let rest ← (List.replicate (length.value.below - 1) ()).mapM fun _ => scalarConstant 0 of
    let type ← typeText of
    return "[" ++ Text.join ", " ((first :: rest).map fun element => type ++ " " ++ element) ++ "]"
  | .integer bits signed => literal value (.integer bits signed)
  | .fixed encoding => literal value (.fixed encoding)
  | .boolean => literal value .boolean
  | type => do throw (.noInitializer (← type.text))

def constant (type : Ty) (initializer : Option Initializer) : Checked String := do
  match initializer, type with
  | none, _ => return "zeroinitializer"
  | some (.scalar value), type => scalarConstant value type
  | some (.list values), .array of length => do
    let text ← typeText of
    let elements ← (initialValues (.array of length) (.list values)).mapM fun v => scalarConstant v of
    return "[" ++ Text.join ", " (elements.map fun element => text ++ " " ++ element) ++ "]"
  | some (.list _), _ => throw .arrayForScalar

def globalText (g : GlobalVariable) : Checked String := do
  let type ← typeText g.type
  return "@" ++ g.qualifiedName ++ " = global " ++ type ++ " " ++ (← constant g.type g.initializer)

/-- The declaration of a printing routine; other names need none. -/
def declaration? (name : String) : Checked (Option String) := do
  match (Routine.ofName name).parameters? with
  | none => return none
  | some parameters =>
    let types ← parameters.mapM typeText
    return some ("declare void @" ++ name ++ "(" ++ Text.join ", " types ++ ")")

/-! ## Files -/

def isMain (p : Procedure) : Bool :=
  p.symbol.name = "main" && p.symbol.mangling.isEmpty && p.parameters.isEmpty

def mainWrapper (p : Procedure) : Checked String := do
  let type ← typeText p.returnType
  return "define i32 @main() \x7b\n    call " ++ type ++ " @" ++ (← p.symbol.text)
    ++ "()\n    ret i32 0\n\x7d"

def header (program : Program) : String :=
  let d := Target.llvm.descriptor
  d.commentPrefix ++ " Module " ++ program.module ++ ", generated for " ++ d.description
    ++ "\n%String = type \x7b i16, ptr \x7d"

def emit (program : Program) (comments : Bool) : Checked (Outcome String) := do
  let emitted ← Emit.each .llvm program.procedures fun p => do
    let code ← procedureCode program p
    Emit.check (Line.listText Instruction.text Target.llvm.descriptor.commentPrefix comments code)
  match emitted with
  | .error errors => return .error errors
  | .ok (procedures, externals) =>
    let globals ← program.globals.mapM globalText
    let declarations ← externals.mapM declaration?
    let wrapper ← match program.procedures.find? isMain with
      | some p => do pure [← mainWrapper p]
      | none => pure []
    return .ok (Text.join "\n\n" (header program :: program.literals.map literalText ++ globals
      ++ declarations.filterMap id ++ procedures ++ wrapper) ++ "\n")

end Retarget.Llvm
