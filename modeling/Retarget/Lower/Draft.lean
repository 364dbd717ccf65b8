import Retarget.Generic
import Retarget.Ty.Width

/-!
# Drafts of procedures

Lowering a function builds a draft of its procedure instruction by instruction. String pool and instance
cache are shared by all functions of a module, and what a function asked of them stays even if it turns
out that it cannot be lowered.
-/
namespace Retarget.Lower

inductive Abort where
  | refused (diagnostic : Diagnostic)
  | fault (fault : Fault)
deriving DecidableEq, Repr

structure Shared where
  /-- Distinct string literals in the order of first use. -/
  pool : List String
  cache : InstanceCache
deriving DecidableEq, Repr

structure Draft where
  registers : RegisterTable
  scope : Assoc String Register
  locals : List LocalVariable
  instructions : List Instruction
  labels : Nat
deriving DecidableEq, Repr

def Draft.empty : Draft := ⟨[], [], [], [], 0⟩

structure State where
  shared : Shared
  draft : Draft
deriving DecidableEq, Repr

structure Context where
  module : Source.Module
  globals : List GlobalVariable
  declaration : Source.Declaration
  name : String
  bindings : Assoc String Ty

end Lower

/-- Lowering: changes the draft and what is shared, or stops. What is shared survives a stop. -/
abbrev Lower := ExceptT Lower.Abort (StateM Lower.State)

namespace Lower

/-! ## Stopping -/

def check {α : Type} : Checked α → Lower α
  | .ok value => pure value
  | .error fault => throw (.fault fault)

/-- Refuses a construct that no instruction does, at its own position or else the function's. -/
def unsupported {α : Type} (ctx : Context) (construct : String) (site : Option Source.Location) : Lower α :=
  throw (.refused (.unsupportedOperation ctx.name construct (site <|> ctx.declaration.site)))

/-! ## Building -/

def modifyDraft (f : Draft → Draft) : Lower Unit := modify fun s => { s with draft := f s.draft }

def getDraft : Lower Draft := return (← get).draft

def emit (operation : Operation) (why : String) : Lower Unit :=
  modifyDraft fun d => { d with instructions := d.instructions ++ [⟨operation, why⟩] }

def allocate (type : Ty) : Lower Register := do
  let (register, registers) := (← getDraft).registers.allocate type
  modifyDraft fun d => { d with registers }
  return register

/-- A label of the procedure that no other label equals: all kinds share one counter. -/
def makeLabel (kind : String) : Lower String := do
  let count := (← getDraft).labels + 1
  modifyDraft fun d => { d with labels := count }
  return s!"{kind}_{count}"

def bind (name : String) (register : Register) : Lower Unit :=
  modifyDraft fun d => { d with scope := d.scope.set name register }

/-- Runs an action; names that it binds are forgotten at its end. -/
def inScope (action : Lower Unit) : Lower Unit := do
  let outer := (← getDraft).scope
  action
  modifyDraft fun d => { d with scope := outer }

def intern (value : String) : Lower Nat := do
  let pool := (← get).shared.pool
  match pool.findIdx? (· == value) with
  | some index => return index
  | none =>
    modify fun s => { s with shared := { s.shared with pool := pool ++ [value] } }
    return pool.length

/-! ## Looking up -/

def findGlobal (ctx : Context) (name : String) : Lower GlobalVariable :=
  match ctx.globals.find? (·.name == name) with
  | some global => pure global
  | none => throw (.fault (.unresolvedGlobal name))

def findVariable (name : String) : Lower Register := do
  match (← getDraft).scope.get? name with
  | some register => return register
  | none => throw (.fault (.unresolvedIdentifier name))

/-- The concrete type behind a type, which has to fit in a register. -/
def resolveScalar (ctx : Context) (type : Ty) (what : String) (site : Option Source.Location) :
    Lower Ty := do
  let resolved ← check (type.substitute ctx.bindings)
  if resolved.isScalar then return resolved
  let text ← check resolved.text
  unsupported ctx s!"{what} of type {text} does not fit in a register" site

/-- The number that a literal stands for at a type. -/
def encodeLiteral (value : Number) (type : Ty) : Checked Number :=
  match type with
  | .fixed encoding => type.wrap (value.mul (.twoPow encoding.shift)).nearestWhole
  | .pointer _ => .ok value
  | _ => type.wrap value

end Lower

end Retarget
