import Retarget.Emit.Data
import Retarget.Graph.Blocks

/-!
# How LLVM code refers to registers

A register that is written once and read only later in the same block is a value; one that holds a
constant or an address is that constant; every other register has a slot on the stack.
-/
namespace Retarget.Llvm

/-- The text of a type. Values of 24 bits have a type of that width. -/
def typeText : Ty → Checked String
  | .boolean => .ok "i1"
  | .integer bits _ => .ok s!"i{bits}"
  | .fixed encoding => .ok s!"i{encoding.usedBits}"
  | .pointer _ => .ok "ptr"
  | .void => .ok "void"
  | .string => .ok "%String"
  | .array of length => do return "[" ++ length.text ++ " x " ++ (← typeText of) ++ "]"
  | .parameter name => .error (.unsubstituted name)
  | .unknown node => .error (.unhandled node.compact "llType")

def literal (value : Number) (type : Ty) : Checked String := do
  match type with
  | .boolean => return if value.isZero then "false" else "true"
  | .pointer _ => if value.isZero then return "null" else throw .nonNullPointer
  | _ => return (← type.wrap value).text

def symbolText (symbol : DataSymbol) : String := "@" ++ symbol.text

inductive Storage where
  | constant (text : String)
  | value
  | slot
deriving DecidableEq, Repr

abbrev Storages := Assoc Numeral Storage

structure Occurrence where
  block : Nat
  position : Nat
  operation : Operation

def occurrences (blocks : List BasicBlock) : List Occurrence :=
  blocks.zipIdx.flatMap fun (block, b) =>
    block.instructions.zipIdx.map fun (i, position) => ⟨b, position, i.operation⟩

def Occurrence.writes (o : Occurrence) (r : Register) : Bool := o.operation.writes.any (·.same r)

def Occurrence.reads (o : Occurrence) (r : Register) : Bool := o.operation.reads.any (·.same r)

def Occurrence.follows (later earlier : Occurrence) : Bool :=
  later.block == earlier.block && earlier.position < later.position

/-- Whether a value defined by the operation may be kept under a name: the others store to a slot. -/
def canName : Operation → Bool
  | .move _ _ | .step _ _ => false
  | _ => true

def storageFor (all : List Occurrence) (r : Register) (definition : Occurrence) : Checked Storage := do
  match definition.operation with
  | .loadImmediate value _ => return .constant (← literal value r.type)
  | .addressOf symbol _ => return .constant (symbolText symbol)
  | operation =>
    let uses := all.filter (·.reads r)
    return if canName operation && uses.all (·.follows definition) then .value else .slot

/-- The storage of a register of the procedure. Parameters are written from outside. -/
def classifyRegister (p : Procedure) (all : List Occurrence) (r : Register) : Checked Storage :=
  if p.isParameterRegister r then .ok .slot
  else
    match all.filter (·.writes r) with
    | [definition] => storageFor all r definition
    | _ => .ok .slot

def classify (p : Procedure) (blocks : List BasicBlock) : Checked Storages := do
  let all := occurrences blocks
  return .ofPairs (← p.registers.mapM fun r => return (r.id, ← classifyRegister p all r))

end Retarget.Llvm
