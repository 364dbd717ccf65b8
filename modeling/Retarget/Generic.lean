import Retarget.Code.Program
import Retarget.Options
import Retarget.Worklist

/-!
# Instances of generic functions

A generic function is a template; an instance of it is the function that its type arguments make of it.
The cache has one instance for every template and list of type arguments. The first request for an
instance reserves it and queues its body for lowering; later requests get the same one back, so that
recursive templates need no care. Two limits keep a template that asks for itself at ever new types from
going on without end.
-/
namespace Retarget

def bindTypeParameters (template : Source.Declaration) (typeArguments : List Ty) : Assoc String Ty :=
  .ofPairs (template.typeParameters.zip typeArguments)

/-- The types that an instance is named by: those of its parameters in order, then the type arguments
that no parameter mentions. -/
def mangling (template : Source.Declaration) (typeArguments : List Ty) : Checked (List Ty) := do
  let bindings := bindTypeParameters template typeArguments
  let parameterTypes ← template.parameters.mapM fun p => p.type.substitute bindings
  let undetermined := (template.typeParameters.zip typeArguments).filter fun (name, _) =>
    !template.parameters.any fun p => p.type.mentions name
  return parameterTypes ++ undetermined.map Prod.snd

structure Instance where
  /-- The place of the template among the declarations: equal templates in two places are two. -/
  template : Nat
  typeArguments : List Ty
  bindings : Assoc String Ty
  symbol : Symbol
  procedure : Option Procedure
deriving DecidableEq, Repr

structure InstanceCache where
  module : String
  limits : InstantiationLimits
  /-- In the order of first request. -/
  instances : List Instance
  /-- Places of the instances that wait to be lowered. -/
  queue : List Nat
deriving DecidableEq, Repr

namespace InstanceCache

def empty (module : String) (limits : InstantiationLimits) : InstanceCache := ⟨module, limits, [], []⟩

def find? (c : InstanceCache) (template : Nat) (typeArguments : List Ty) : Option Instance :=
  c.instances.find? fun i => i.template == template && i.typeArguments = typeArguments

/-- Why a new instance cannot be made, if it cannot. -/
def refusal? (c : InstanceCache) (template : Nat) (declaration : Source.Declaration)
    (typeArguments : List Ty) : Checked (Option String) := do
  let expected := declaration.typeParameters.length
  if typeArguments.length ≠ expected then
    return some s!"expected {expected} type arguments, got {typeArguments.length}"
  let depth := c.limits.maxTypeDepth
  if let some type := typeArguments.find? fun t => depth.value.lt (.ofNat t.nestingDepth) then
    let name ← type.shortName
    return some s!"type argument {name} nests deeper than {depth.text} levels"
  let most := c.limits.maxInstancesPerTemplate
  if most.value.le (.ofNat (c.instances.countP (·.template == template))) then
    return some s!"more than {most.text} distinct instantiations"
  return none

def instantiate (c : InstanceCache) (template : Nat) (declaration : Source.Declaration)
    (typeArguments : List Ty) : Checked (Except Diagnostic Instance × InstanceCache) := do
  match c.find? template typeArguments with
  | some instance_ => return (.ok instance_, c)
  | none =>
    match ← c.refusal? template declaration typeArguments with
    | some reason =>
      return (.error (.nonTerminatingInstantiation declaration.name typeArguments reason), c)
    | none =>
      let made : Instance := {
        template
        typeArguments
        bindings := bindTypeParameters declaration typeArguments
        symbol := ⟨c.module, declaration.name, ← mangling declaration typeArguments⟩
        procedure := none }
      return (.ok made, { c with
        instances := c.instances ++ [made]
        queue := c.queue ++ [c.instances.length] })

/-- The first instance that waits to be lowered, with its place, and the cache without it in the queue. -/
def next? (c : InstanceCache) : Option (Nat × Instance × InstanceCache) :=
  match c.queue with
  | [] => none
  | place :: queue =>
    match c.instances[place]? with
    | some waiting => some (place, waiting, { c with queue })
    | none => none

def complete (c : InstanceCache) (place : Nat) (procedure : Procedure) : InstanceCache :=
  { c with instances := c.instances.modify place fun i => { i with procedure := some procedure } }

def clear (c : InstanceCache) : InstanceCache := { c with queue := [] }

def lowered (c : InstanceCache) : List Procedure := c.instances.filterMap (·.procedure)

/-- As many instances as the limits allow for a number of templates, so as many as can ever wait. -/
def capacity (c : InstanceCache) (templates : Nat) : Nat :=
  templates * c.limits.instances + c.queue.length

/-- Lowers queued instances, and those that lowering them asks for, until none waits. The cache is part of
a larger state, which `lower` may change; `rounds` bounds how many instances are taken up. -/
def drain {σ ε : Type} (get : σ → InstanceCache) (set : InstanceCache → σ → σ)
    (lower : Instance → σ → Except ε (Option Procedure) × σ) : Nat → σ → Except ε Unit × σ :=
  drainWith fun state =>
    (get state).next?.map fun (place, waiting, rest) =>
      match lower waiting (set rest state) with
      | (.error e, state) => (.error e, state)
      | (.ok none, state) => (.ok (), state)
      | (.ok (some procedure), state) => (.ok (), set ((get state).complete place procedure) state)

end InstanceCache

end Retarget
