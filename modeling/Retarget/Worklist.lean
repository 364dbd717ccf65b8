/-!
# Worklists

Queues whose items may put new ones at the end while they are handled.
-/
namespace Retarget

/-- Takes up one item after the other until none waits or one fails. `step` takes up the next item, if there is
one; `rounds` bounds how many are taken up. -/
def drainWith {σ ε : Type} (step : σ → Option (Except ε Unit × σ)) : Nat → σ → Except ε Unit × σ
  | 0, state => (.ok (), state)
  | rounds + 1, state =>
    match step state with
    | none => (.ok (), state)
    | some (.error e, state) => (.error e, state)
    | some (.ok (), state) => drainWith step rounds state

/-- The items of a queue in the order in which they are taken up. Handling an item puts those that
`follow` gives at the end of the queue. -/
def drain {α : Type} (follow : α → List α) (rounds : Nat) (queue : List α) : List α :=
  let step : List α × List α → Option (Except Empty Unit × List α × List α)
    | (_, []) => none
    | (taken, item :: queue) => some (.ok (), item :: taken, queue ++ follow item)
  (drainWith step rounds ([], queue)).2.1.reverse

end Retarget
