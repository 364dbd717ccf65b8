import Retarget.Code.Program

/-!
# Tail recursion

A procedure all of whose calls of itself stand right before a return of their result needs no stack for
them: such a call becomes moves of the arguments to the parameters and a jump to the entry.
-/
namespace Retarget

namespace Operation

def calls (symbol : Symbol) : Operation → Bool
  | .call (.function callee) _ _ => callee = symbol
  | _ => false

/-- The arguments of a call of the symbol whose result the next operation returns. -/
def tailCall? (symbol : Symbol) : Operation → Operation → Option (List Register)
  | .call (.function callee) arguments none, .ret none =>
    if callee = symbol then some arguments else none
  | .call (.function callee) arguments (some result), .ret (some returned) =>
    if callee = symbol && result.same returned then some arguments else none
  | _, _ => none

end Operation

namespace Procedure

def selfCalls (p : Procedure) : List Nat :=
  (p.instructions.zipIdx.filter (·.1.operation.calls p.symbol)).map Prod.snd

def isTailCallAt (p : Procedure) (place : Nat) : Bool :=
  match p.instructions[place]?, p.instructions[place + 1]? with
  | some call, some next => (Operation.tailCall? p.symbol call.operation next.operation).isSome
  | _, _ => false

/-- Whether the procedure calls itself, and only by tail calls. -/
def callsItselfLast (p : Procedure) : Bool :=
  !p.selfCalls.isEmpty && p.selfCalls.all p.isTailCallAt

/-! ## Conversion to a loop -/

/-- The names that the entry label may get, best first; one more than the procedure has instructions. -/
def loopLabels (p : Procedure) : List String :=
  let base := "tail_recursion_loop"
  base :: (List.range p.instructions.length).map fun k => s!"{base}_{k + 2}"

/-- A name for the entry that no label of the procedure has. -/
def loopLabel (p : Procedure) : String :=
  (p.loopLabels.find? fun name => !p.instructions.any (·.operation.labels name)).getD ""

/-- Moves to fresh registers the arguments that will be overwritten before they are read. Gives the moves,
and where every argument is found after them. -/
def saveArguments (needsSave : Register → Bool) :
    List Register → RegisterTable → List Instruction × List Register × RegisterTable
  | [], table => ([], [], table)
  | argument :: rest, table =>
    if needsSave argument then
      let (saved, table) := table.allocate argument.type
      let (moves, sources, table) := saveArguments needsSave rest table
      (⟨.move argument saved, "Save old parameter value"⟩ :: moves, saved :: sources, table)
    else
      let (moves, sources, table) := saveArguments needsSave rest table
      (moves, argument :: sources, table)

/-- The parameters that a call of the procedure itself gives new values. -/
def rebound (p : Procedure) (arguments : List Register) : List Register :=
  ((p.parameters.zip arguments).filter fun (q, a) => !a.same q.register).map (·.1.register)

/-- The move of an argument, found at `source`, to its parameter; none if it is there already. -/
def rebindMove? (parameter : Parameter) (argument source : Register) : Option Instruction :=
  if argument.same parameter.register then none
  else some ⟨.move source parameter.register, s!"Rebind {parameter.name} for the next iteration"⟩

/-- Gives all parameters their new values at once: arguments that are parameters about to change are
saved first. -/
def rebindParameters (p : Procedure) (arguments : List Register) (table : RegisterTable) :
    List Instruction × RegisterTable :=
  let changed := p.rebound arguments
  let (saves, sources, table) := saveArguments
    (fun a => p.isParameterRegister a && changed.any (·.same a)) arguments table
  let moves := (p.parameters.zip (arguments.zip sources)).filterMap fun (q, a, source) =>
    rebindMove? q a source
  (saves ++ moves, table)

/-- The instructions with every tail call of the procedure, and the return behind it, made a jump. -/
def withoutTailCalls (p : Procedure) (label : String) :
    List Instruction → RegisterTable → List Instruction × RegisterTable
  | [], table => ([], table)
  | [last], table => ([last], table)
  | first :: second :: rest, table =>
    match Operation.tailCall? p.symbol first.operation second.operation with
    | some arguments =>
      let (moves, table) := p.rebindParameters arguments table
      let (rest, table) := p.withoutTailCalls label rest table
      (moves ++ ⟨.goto label, "Tail call becomes a loop"⟩ :: rest, table)
    | none =>
      let (rest, table) := p.withoutTailCalls label (second :: rest) table
      (first :: rest, table)

/-- The procedure as a loop, if it is marked as tail recursive. -/
def convertTailCalls (p : Procedure) : Procedure :=
  if p.isTailRecursive then
    let label := p.loopLabel
    let (body, registers) := p.withoutTailCalls label p.instructions p.registers
    { p with
      instructions := ⟨.label label, "Tail recursion re-enters here"⟩ :: body
      registers }
  else p

end Procedure

end Retarget
