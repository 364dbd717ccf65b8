import Retarget.Code.Program
import Retarget.Inherited
import Retarget.Run.Value

/-!
# Memory of a run

Memory is a set of named blocks of cells. A cell holds one scalar, whatever its width. An address is a
block and an offset into it; an offset between two cells is inside the block but names neither.
-/
namespace Retarget

structure Block where
  cells : List Value
  /-- What was stored at offsets where there is no cell. -/
  between : Assoc Number Value
  /-- How far the block reaches, should it have fewer cells than that. -/
  room : Number
deriving DecidableEq, Repr

abbrev Memory := Assoc String Block

namespace Block

def ofCells (cells : List Value) : Block := ⟨cells, [], 0⟩

/-- The block that an inherited entry passes for: it has room, but no cells. -/
def ofInherited (entry : Inherited) : Block := ⟨[], [], entry.room⟩

def isOutside (b : Block) (offset : Number) : Bool :=
  offset.lt 0 || ((Number.ofNat b.cells.length).le offset && b.room.le offset)

def get? (b : Block) (offset : Number) : Option Value :=
  match offset.toIndex?.bind (b.cells[·]?) with
  | some value => some value
  | none => b.between.get? offset

def cellAt? (b : Block) (offset : Number) : Option Nat :=
  offset.toIndex?.filter (· < b.cells.length)

def set (b : Block) (offset : Number) (value : Value) : Block :=
  match b.cellAt? offset with
  | some i => { b with cells := b.cells.set i value }
  | none => { b with between := b.between.set offset value }

end Block

namespace Memory

/-- The block of a name: memory is a table of blocks, so it inherits some. -/
def find? (memory : Memory) (name : String) : Option Block :=
  memory.get? name <|> (Inherited.find? name).map .ofInherited

/-- The block of an address that lies inside it. -/
def block (memory : Memory) (name : String) (offset : Number) : Except Failure Block :=
  match memory.find? name with
  | none => .error (.noBlock name)
  | some b => if b.isOutside offset then .error (.outOfBounds name offset) else .ok b

def read (memory : Memory) (name : String) (offset : Number) : Except Failure (Option Value) := do
  return (← memory.block name offset).get? offset

def write (memory : Memory) (name : String) (offset : Number) (value : Value) :
    Except Failure Memory := do
  let b ← memory.block name offset
  return memory.set name (b.set offset value)

end Memory

/-! ## Initial memory -/

/-- The list with the values written over its front; it grows if it is too short for them. -/
def overwrite (cells values : List Value) : List Value := values ++ cells.drop values.length

/-- How many cells an array of a length has; one of `2 ^ 32` elements or more is not laid out at all. -/
def cellCount (length : Numeral) : Nat :=
  let count := length.value.toCount
  if count < twoTo 32 then count else 0

def GlobalVariable.cells (g : GlobalVariable) : List Value :=
  match g.type, g.initializer with
  | .array _ length, some (.list values) =>
    overwrite (List.replicate (cellCount length) (.number 0)) (values.map .number)
  | .array _ length, _ => List.replicate (cellCount length) (.number 0)
  | _, some (.scalar value) => [.number value]
  | _, _ => [.number 0]

def StringLiteral.dataName (s : StringLiteral) : String := s.name ++ ".data"

def StringLiteral.cells (s : StringLiteral) : List Value :=
  [.number (.ofNat (Text.length s.value)), .pointer s.dataName 0]

def StringLiteral.dataCells (s : StringLiteral) : List Value :=
  (Text.firstUnits s.value).map fun unit => .number (.ofNat unit.toNat)

def Program.initialMemory (p : Program) : Memory :=
  let globals : Memory := p.globals.foldl (fun memory g => memory.set g.qualifiedName (.ofCells g.cells)) []
  p.literals.foldl
    (fun memory s => (memory.set s.name (.ofCells s.cells)).set s.dataName (.ofCells s.dataCells)) globals

end Retarget
