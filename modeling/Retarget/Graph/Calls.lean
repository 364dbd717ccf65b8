import Retarget.Code.Program

/-!
# The call graph

Who calls whom, and whether a procedure can be entered again before it returns.
-/
namespace Retarget

/-- The functions that a procedure calls, each once, in the order of the first call. -/
def Procedure.callees (p : Procedure) : List Symbol :=
  p.instructions.foldl (fun found i =>
    match i.operation with
    | .call (.function symbol) _ _ => if found.contains symbol then found else found ++ [symbol]
    | _ => found) []

namespace Program

/-- How far a search for a call path has come: the path if there is one, and the names visited. -/
structure Search where
  path : Option (List String)
  visited : List String

/-- Looks for a path back to the goal through each of the callees in turn. `deeper` searches on from a
procedure that was not visited before. -/
def searchCallees (program : Program) (goal : Symbol)
    (deeper : Procedure → List String → List String → Checked Search) (path : List String) :
    List Symbol → List String → Checked Search
  | [], visited => .ok ⟨none, visited⟩
  | callee :: rest, visited => do
    let name ← callee.text
    if callee = goal then
      return ⟨some (path ++ [name]), visited⟩
    else if visited.contains name then
      program.searchCallees goal deeper path rest visited
    else
      match program.find? callee with
      | none => program.searchCallees goal deeper path rest (visited ++ [name])
      | some next =>
        let found ← deeper next (path ++ [name]) (visited ++ [name])
        if found.path.isSome then return found
        program.searchCallees goal deeper path rest found.visited

/-- Depth-first search along calls, at most `depth` calls deep. -/
def searchCycle (program : Program) (goal : Symbol) :
    Nat → Procedure → List String → List String → Checked Search
  | 0, _, _, visited => .ok ⟨none, visited⟩
  | depth + 1, p, path, visited =>
    program.searchCallees goal (program.searchCycle goal depth) path p.callees visited

/-- A path of calls from the procedure back to itself, as names that start and end with its own. No
search goes deeper than there are procedures, for every call that it follows leads to a new one. -/
def recursionCycle (program : Program) (p : Procedure) : Checked (Option (List String)) := do
  let name ← p.symbol.text
  let found ← program.searchCycle p.symbol (program.procedures.length + 1) p [name] []
  return found.path

end Program

end Retarget
