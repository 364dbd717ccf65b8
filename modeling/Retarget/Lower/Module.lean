import Retarget.Lower.Statement

/-!
# Lowering modules

A module is lowered function by function: first the ordinary functions, then the instances that they ask
for, until no new ones appear. A function that cannot be lowered is reported and does not touch the
others, except that instances without end stop the whole build.
-/
namespace Retarget

namespace Lower

def lowerParameters (ctx : Context) : List Source.Parameter → Lower (List Parameter)
  | [] => return []
  | p :: rest => do
    let type ← resolveScalar ctx p.type s!"parameter {p.name}" none
    let register ← allocate type
    bind p.name register
    return ⟨p.name, register⟩ :: (← lowerParameters ctx rest)

/-- Whether a function that returns nothing lacks a return at its end. -/
def needsReturn (returnType : Ty) (instructions : List Instruction) : Bool :=
  returnType = .void && match instructions.getLast? with
    | some ⟨.ret _, _⟩ => false
    | _ => true

def lowerFunction (ctx : Context) (symbol : Symbol) : Lower Procedure := do
  let parameters ← lowerParameters ctx ctx.declaration.parameters
  let returnType ← check (ctx.declaration.returnType.substitute ctx.bindings)
  if returnType ≠ .void then
    let _ ← resolveScalar ctx returnType "return value" none
  inScope (lowerStatements ctx ctx.declaration.body)
  if needsReturn returnType (← getDraft).instructions then
    emit (.ret none) "Implicit return"
  let draft ← getDraft
  return {
    symbol
    parameters
    returnType
    locals := draft.locals
    registers := draft.registers
    instructions := draft.instructions
    smcRequested := ctx.declaration.smc
    isTailRecursive := false
    convention := .standard }

/-- The state of a build: what functions share, and what went wrong so far. -/
structure Build where
  shared : Shared
  errors : List Diagnostic
  fatal : Bool

def lowerOrRecord (module : Source.Module) (globals : List GlobalVariable)
    (declaration : Source.Declaration) (symbol : Symbol) (bindings : Assoc String Ty) (b : Build) :
    Except Fault (Option Procedure) × Build :=
  if b.fatal then (.ok none, b)
  else
    match symbol.text with
    | .error fault => (.error fault, b)
    | .ok name =>
      let ctx : Context := { module, globals, declaration, name, bindings }
      let (result, state) := (lowerFunction ctx symbol).run.run ⟨b.shared, .empty⟩
      match result with
      | .ok procedure => (.ok (some procedure), { b with shared := state.shared })
      | .error (.fault fault) => (.error fault, { b with shared := state.shared })
      | .error (.refused diagnostic) =>
        let errors := b.errors ++ [diagnostic]
        if diagnostic.isFatal then
          let shared := { state.shared with cache := state.shared.cache.clear }
          (.ok none, { shared, errors, fatal := true })
        else (.ok none, { b with shared := state.shared, errors })

def lowerOrdinary (module : Source.Module) (globals : List GlobalVariable) :
    List Source.Declaration → Build → Except Fault (List Procedure) × Build
  | [], b => (.ok [], b)
  | declaration :: rest, b =>
    if !declaration.typeParameters.isEmpty then lowerOrdinary module globals rest b
    else
      match lowerOrRecord module globals declaration ⟨module.name, declaration.name, []⟩ [] b with
      | (.error fault, b) => (.error fault, b)
      | (.ok procedure, b) =>
        let (result, b) := lowerOrdinary module globals rest b
        (result.map (procedure.toList ++ ·), b)

def lowerInstance (module : Source.Module) (globals : List GlobalVariable) (i : Instance) (b : Build) :
    Except Fault (Option Procedure) × Build :=
  match module.functions[i.template]? with
  | some declaration => lowerOrRecord module globals declaration i.symbol i.bindings b
  | none => (.ok none, b)

/-- Lowers the instances that were asked for, and those that they ask for in turn. Without a bound on their
number there may be no end to them; then some are left. -/
def lowerInstances (module : Source.Module) (globals : List GlobalVariable) (b : Build) :
    Except Fault Unit × Build :=
  let (drained, b) := InstanceCache.drain (·.shared.cache)
    (fun cache b => { b with shared := { b.shared with cache } })
    (lowerInstance module globals) (b.shared.cache.capacity module.functions.length) b
  if b.shared.cache.queue.isEmpty then (drained, b)
  else (drained.bind fun _ => .error (.instancesLeft module.name), b)

end Lower

open Lower

/-- A global variable of a module; truth values are stored as numbers. -/
def Source.GlobalDeclaration.lower (module : String) (g : Source.GlobalDeclaration) : GlobalVariable :=
  let initializer : Option Initializer := g.initializer.map fun
    | .number value => .scalar value
    | .boolean value => .scalar (if value then 1 else 0)
    | .list values => .list values
  ⟨module, g.name, g.type, initializer⟩

/-- The program of a module, or everything that keeps it from having one. -/
def Source.Module.lower (module : Source.Module) (limits : InstantiationLimits) :
    Checked (Outcome Program) := do
  let globals := module.globals.map (·.lower module.name)
  let start : Build := ⟨⟨[], .empty module.name limits⟩, [], false⟩
  let (ordinary, b) := lowerOrdinary module globals module.functions start
  let ordinary ← ordinary
  let (drained, b) := lowerInstances module globals b
  drained
  if !b.errors.isEmpty then return .error b.errors
  return .ok {
    module := module.name
    procedures := ordinary ++ b.shared.cache.lowered
    globals
    literals := b.shared.pool.zipIdx.map fun (value, index) => ⟨.natural index, value⟩ }

end Retarget
