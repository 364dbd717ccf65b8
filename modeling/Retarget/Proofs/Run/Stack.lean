import Retarget.Proofs.Graph.Calls
import Retarget.Proofs.Run.Execution
import Retarget.Proofs.Run.Simulation

/-!
# The stack of a run

The procedures under execution, from the active one to the one that the run began with. Each was called by the
one below it, so the stack is a path in the call graph, and a procedure that stands in it twice calls itself
by some way or other.
-/
namespace Retarget

open List Machine

/-- The procedures under execution, the innermost first. -/
def Machine.stack (m : Machine) : List Procedure :=
  m.active.procedure :: m.callers.map (·.activation.procedure)

namespace Program

variable {p : Program} {m n : Machine}

/-- The procedures on the stack are the program's, and each is called by the one below it. -/
structure Stacks (p : Program) (stack : List Procedure) : Prop where
  procedures : ∀ f ∈ stack, f ∈ p.procedures
  chain : stack.IsChain fun inner outer => p.Calls outer inner

/-- A step leaves the stack alone, puts a procedure on it that the active one calls, or takes one off. -/
theorem stack_of_moves (h : Moves p m n) :
    n.stack = m.stack ∨ (∃ f, p.Calls m.active.procedure f ∧ n.stack = f :: m.stack) ∨
      n.stack = m.stack.tail := by
  cases h with
  | goesOn reaction =>
    obtain ⟨i, e, _, -, -, -, -, -, rfl⟩ := Activation.goesOn_of_react reaction
    refine Or.inl ?_
    show (m.active.written e.write).procedure :: _ = _
    rcases e.write with _ | ⟨r, _ | v⟩ <;> rfl
  | @calls symbol _ _ dest f reaction found =>
    obtain ⟨i, args, hnext, hcall, -, rfl⟩ := Activation.calls_of_react reaction
    refine Or.inr (Or.inl ⟨f, ⟨symbol, ?_, found⟩, rfl⟩)
    exact Procedure.mem_callees.mpr ⟨i, mem_of_getElem? hnext, args, dest, hcall⟩
  | @returns _ s _ a _ callers resumed =>
    refine Or.inr (Or.inr ?_)
    obtain ⟨hproc, -⟩ := Suspended.resume_eq resumed
    simp only [stack, callers, hproc, map_cons, tail_cons]

theorem stacks_of_running (hm : p.Stacks m.stack) (h : m.advance p = .running n) : p.Stacks n.stack := by
  rcases stack_of_moves (moves_of_running h) with hn | ⟨f, hcalls, hn⟩ | hn <;> rw [hn]
  · exact hm
  · obtain ⟨s, -, hfound⟩ := id hcalls
    refine ⟨fun g hg => ?_, ?_⟩
    · rcases mem_cons.mp hg with rfl | hg
      · exact (mem_of_find? hfound).1
      · exact hm.procedures g hg
    · exact isChain_cons_cons.mpr ⟨hcalls, hm.chain⟩
  · exact ⟨fun g hg => hm.procedures g (mem_of_mem_tail hg), hm.chain.tail⟩

/-- Along every run the stack is a path in the call graph. -/
theorem stacks_of_mem_machines (hm : m ∈ p.machines symbol args limit) : p.Stacks m.stack := by
  obtain ⟨f, k, hf, -, -, hsteps⟩ := mem_machines.mp hm
  refine @Steps.invariant p (fun n => p.Stacks n.stack) stacks_of_running k _ m hsteps ?_
  refine ⟨fun g hg => ?_, isChain_singleton _⟩
  rw [mem_singleton.mp hg]
  exact (mem_of_find? hf).1

/-- A procedure that cannot come to call itself stands on the stack at most once. -/
theorem Stacks.count_le_one (hp : p.TellsApart) {stack} (hstack : p.Stacks stack) {f} (hf : f ∈ p.procedures)
    (hcycle : ¬ Relation.TransGen p.Calls f f) : stack.countP (·.symbol = f.symbol) ≤ 1 := by
  have hpairs : stack.Pairwise fun inner outer => Relation.TransGen p.Calls outer inner := by
    have htrans : IsTrans Procedure fun inner outer => Relation.TransGen p.Calls outer inner :=
      ⟨fun _ _ _ hab hbc => hbc.trans hab⟩
    exact (hstack.chain.imp fun _ _ => Relation.TransGen.single).pairwise
  have heq : ∀ g ∈ stack.filter (·.symbol = f.symbol), g = f := by
    intro g hg
    obtain ⟨hg, hsym⟩ := mem_filter.mp hg
    exact inj_on_of_nodup_map hp.procedures (hstack.procedures g hg) hf (of_decide_eq_true hsym)
  have hfiltered := hpairs.sublist (filter_sublist (p := (·.symbol = f.symbol)))
  rw [countP_eq_length_filter]
  match hfilter : stack.filter (·.symbol = f.symbol) with
  | [] => rw [hfilter]; exact Nat.zero_le _
  | [g] => rw [hfilter]; exact Nat.le_refl _
  | g :: g' :: rest =>
    rw [hfilter] at heq hfiltered
    have hcalls := rel_of_pairwise_cons hfiltered mem_cons_self
    rw [heq g mem_cons_self, heq g' (mem_cons_of_mem _ mem_cons_self)] at hcalls
    exact absurd hcalls hcycle

end Program

end Retarget
