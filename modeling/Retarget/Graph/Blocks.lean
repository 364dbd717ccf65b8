import Retarget.Assoc
import Retarget.Code.Program

/-!
# Basic blocks

Straight-line code is cut before every label and behind every jump and return. The blocks, and the ways
from one to another, are the control-flow graph.
-/
namespace Retarget

inductive BlockRole where
  | begins
  | continues
  | ends
deriving DecidableEq, Repr

def Operation.blockRole : Operation → BlockRole
  | .label _ => .begins
  | .goto _ | .gotoIfFalse _ _ | .ret _ => .ends
  | _ => .continues

structure BasicBlock where
  name : Option String
  instructions : List Instruction
deriving DecidableEq, Repr

structure BlockExits where
  label : Option String
  next : Bool
  exit : Bool
deriving DecidableEq, Repr

namespace BasicBlock

def ofInstructions (instructions : List Instruction) : BasicBlock :=
  let name := match instructions with
    | ⟨.label name, _⟩ :: _ => some name
    | _ => none
  ⟨name, instructions⟩

def exits (instructions : List Instruction) : Checked BlockExits :=
  match instructions.getLast? with
  | none => .error .emptyBlock
  | some ⟨.goto label, _⟩ => .ok ⟨some label, false, false⟩
  | some ⟨.gotoIfFalse _ label, _⟩ => .ok ⟨some label, true, false⟩
  | some ⟨.ret _, _⟩ => .ok ⟨none, false, true⟩
  | some _ => .ok ⟨none, true, false⟩

/-- A block of the instructions gathered so far, unless there are none. -/
def finish (gathered : List Instruction) : List BasicBlock :=
  if gathered.isEmpty then [] else [ofInstructions gathered]

/-- Cuts instructions into blocks; the first of them goes on from what is gathered. -/
def split (gathered : List Instruction) : List Instruction → List BasicBlock
  | [] => finish gathered
  | i :: rest =>
    match i.operation.blockRole with
    | .begins => finish gathered ++ split [i] rest
    | .continues => split (gathered ++ [i]) rest
    | .ends => ofInstructions (gathered ++ [i]) :: split [] rest

end BasicBlock

structure FlowGraph where
  blocks : List BasicBlock
  /-- The block of every label. Of several blocks with one label the last counts. -/
  labels : Assoc String Nat
  connections : List (Nat × Nat)
  exits : List Nat
deriving DecidableEq, Repr

namespace FlowGraph

/-- A block starts at a label only if the label has a name. -/
def labelsOf (blocks : List BasicBlock) : Assoc String Nat :=
  blocks.zipIdx.foldl (fun labels (block, index) =>
    match block.name with
    | some name => if name = "" then labels else labels.set name index
    | none => labels) []

/-- The connections from the block at an index among `count` blocks. -/
def connectionsFrom (labels : Assoc String Nat) (count : Nat) (block : BasicBlock) (index : Nat) :
    Checked (List (Nat × Nat)) := do
  let exits ← BasicBlock.exits block.instructions
  let jump ← match exits.label with
    | none | some "" => pure []
    | some label =>
      match labels.get? label with
      | some target => pure [(index, target)]
      | none => throw (.jumpToMissingLabel label)
  return jump ++ if exits.next && index + 1 < count then [(index, index + 1)] else []

def returns (block : BasicBlock) : Bool :=
  match BasicBlock.exits block.instructions with
  | .ok exits => exits.exit
  | .error _ => false

def ofInstructions (instructions : List Instruction) : Checked FlowGraph := do
  instructions.forM (·.operation.known "blockBehaviour")
  let blocks := BasicBlock.split [] instructions
  let labels := labelsOf blocks
  let connections ← blocks.zipIdx.mapM fun (block, index) =>
    connectionsFrom labels blocks.length block index
  return {
    blocks
    labels
    connections := connections.flatten
    exits := (blocks.zipIdx.filter (returns ·.1)).map Prod.snd }

/-! ## Drawing -/

def escape : Char → List Char
  | '"' => ['\\', '"']
  | ':' => ['\\', ':']
  | c => [c]

def nodeText (block : BasicBlock) (index : Nat) : Checked String := do
  let lines ← block.instructions.mapM Instruction.text
  let label := String.ofList ((Text.join "\\l" lines).toList.flatMap escape)
  return s!"node_{index} [shape=\"box\", label=\"" ++ label ++ "\\l\"]\n"

def dot (g : FlowGraph) : Checked String := do
  let nodes ← g.blocks.zipIdx.mapM fun (block, index) => nodeText block index
  let exits := g.exits.map fun index => s!"node_{index} -> Exit\n"
  let connections := g.connections.map fun (source, target) => s!"node_{source} -> node_{target}\n"
  return "digraph \x7b\nEntry [style=\"invis\"]\nEntry -> node_0\n" ++ Text.join "" nodes
    ++ "Exit [style=\"invis\"]\n" ++ Text.join "" exits ++ Text.join "" connections ++ "\x7d"

end FlowGraph

end Retarget
