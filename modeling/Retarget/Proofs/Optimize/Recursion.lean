import Retarget.Proofs.Graph.Calls
import Retarget.Proofs.Optimize.Looping

/-!
# Recursion that is gone

A procedure that calls itself only by tail calls does not call itself once it is a loop. If it calls nothing else,
it needs a single activation however often it goes round. The program that has it as a loop returns what it
returned before, from whatever memory it starts, no deeper in calls (`convertTailCalls_removes_recursion`).
-/
namespace Retarget

open List

namespace Procedure

variable {f : Procedure}

/-! ## Calls that are left -/

/-- A call of the procedure itself would have been converted. -/
theorem Converts.calls_eq (h : f.Converts code table code' table')
    (hlast : ∀ k i, code[k]? = some i → i.operation.calls f.symbol = true → ∃ j, code[k + 1]? = some j ∧
      (Operation.tailCall? f.symbol i.operation j.operation).isSome) :
    ∀ i ∈ code', i.operation.calls f.symbol = false := by
  induction h with
  | nil => exact forall_mem_nil _
  | @plain i code _ _ _ notTail _ ih =>
    refine forall_mem_cons.mpr ⟨Bool.eq_false_iff.mpr fun hcalls => ?_, ih fun k => hlast (k + 1)⟩
    obtain ⟨j, hj, htail⟩ := hlast 0 i rfl hcalls
    cases code with
    | nil => cases hj
    | cons j' more =>
      cases hj
      rw [notTail j more rfl] at htail
      cases htail
  | tail _ _ ih =>
    refine forall_mem_append.mpr ⟨fun k hk => ?_, forall_mem_cons.mpr ⟨rfl, ih fun k => hlast (k + 2)⟩⟩
    obtain ⟨_, _, hop, -⟩ := rebindParameters_moves hk
    rw [hop]
    rfl

theorem not_callsSymbol_asLoop (h : f.callsItselfLast = true) : ¬f.asLoop.CallsSymbol f.symbol := by
  rintro ⟨i, hi, _, _, hop⟩
  have hcalls : i.operation.calls f.symbol = true := by
    rw [hop]
    exact decide_eq_true rfl
  rw [asLoop_eq] at hi
  rcases mem_cons.mp hi with rfl | hi
  · cases hop
  · have hleft := (f.converts_withoutTailCalls f.instructions f.registers).calls_eq (fun k i hk hcalls => ?_) i hi
    · rw [hcalls] at hleft
      cases hleft
    · have hmem : k ∈ f.selfCalls :=
        mem_map.mpr ⟨(i, k), mem_filter.mpr ⟨mem_zipIdx_iff_getElem?.mpr hk, hcalls⟩, rfl⟩
      have htail := all_eq_true.mp (Bool.and_eq_true_iff.mp h).2 k hmem
      simp only [isTailCallAt, hk] at htail
      split at htail
      · rename_i call next hcall hnext
        cases hcall
        exact ⟨next, hnext, htail⟩
      · cases htail

end Procedure

/-! ## Runs -/

namespace Machine

variable {p : Program} {f : Procedure} {m n : Machine}

/-- The procedure has been the only one all along. -/
structure Alone (f : Procedure) (m : Machine) : Prop where
  procedure : m.active.procedure = f
  callers : m.callers = []
  depth : m.world.maxCallDepth = 1

theorem Alone.step (hf : ∀ s, ¬f.CallsSymbol s) (hm : m.Alone f) (h : m.advance p = .running n) : n.Alone f := by
  cases moves_of_running h with
  | goesOn reaction => exact ⟨(Activation.procedure_of_goesOn reaction).trans hm.procedure, hm.callers, hm.depth⟩
  | calls reaction =>
    obtain ⟨i, args, hi, hop, -⟩ := Activation.calls_of_react reaction
    exact absurd ⟨i, hm.procedure ▸ mem_of_getElem? hi, args, _, hop⟩ (hf _)
  | returns _ callers => cases hm.callers.symm.trans callers

theorem Alone.maxCallDepth_eq (hm : m.Alone f) (h : m.advance p = .ended (.returned value w)) : w.maxCallDepth = 1 := by
  cases ends_of_ended h
  exact hm.depth

end Machine

namespace Program

variable {p : Program} {f : Procedure}

def withLoop (p : Program) (f : Procedure) : Program :=
  { p with procedures := p.procedures.map fun g => if g = f then f.asLoop else g }

theorem withLoop_corresponds (hf : f.Loopable) : p.Corresponds Procedure.MayLoop (p.withLoop f) := by
  refine ⟨rfl, rfl, forall₂_map_right_iff.mpr (forall₂_same.mpr fun g _ => ?_)⟩
  split
  · rename_i h
    exact Or.inr ⟨h ▸ hf, h ▸ rfl⟩
  · exact Or.inl rfl

theorem runFrom_withLoop (hf : f.Loopable)
    (h : p.runFrom memory symbol args limit = .ok (.finished value output cycles depth)) :
    ∃ enough, ∀ limit', enough ≤ cyclesAllowed limit' → ∃ cycles' depth', depth' ≤ depth ∧
      (p.withLoop f).runFrom memory symbol args limit' = .ok (.finished value output cycles' depth') := by
  obtain ⟨g, k, n, w, hg, hl, -, hs, he, rfl, rfl, rfl⟩ := returned_of_runFrom h
  have hpq : p.Corresponds Procedure.MayLoop (p.withLoop f) := withLoop_corresponds hf
  obtain ⟨_, hg', hfg⟩ := hpq.exists_find? (fun _ _ h => h.sameFace.symbol) hg
  obtain ⟨j, _, b, hahead, hlooped⟩ := Machine.Shortened.enters (q := p.withLoop f) hg hfg args
    (World.entered ⟨memory, [], 0, 0, 0⟩) []
  obtain ⟨enough, hreturns⟩ := (Machine.Shortened.simulates hpq).returns (fun _ => trivial) hs he hahead
    ⟨rfl, rfl, Nat.le_refl _, rfl, rfl, Or.inl hlooped, .nil⟩
  refine ⟨enough, fun limit' hle => ?_⟩
  rw [runFrom_of_some hg' (by rw [hl, hfg.sameFace.parameters])]
  exact hreturns limit' _ hle

/-- A procedure that calls itself only by tail calls and is made a loop no longer calls itself, and has a single
activation if it calls no other. Any program that has it runs as before, no deeper in calls. A procedure that is
not marked is left as it is; a mark that it does not deserve does no harm. -/
theorem convertTailCalls_removes_recursion (hf : f.Loopable) :
    (f.isTailRecursive = false → f.convertTailCalls = f) ∧
      (f.callsItselfLast = true → ¬f.asLoop.CallsSymbol f.symbol ∧
        ((∀ s, f.CallsSymbol s → s = f.symbol) → ∀ {p : Program} {memory arguments limit value output cycles depth},
          p.find? f.symbol = some f.asLoop →
          p.runFrom memory f.symbol arguments limit = .ok (.finished value output cycles depth) → depth = 1)) ∧
      ∀ {p : Program} {memory symbol arguments limit value output cycles depth},
        p.runFrom memory symbol arguments limit = .ok (.finished value output cycles depth) →
        ∃ enough, ∀ limit', enough ≤ cyclesAllowed limit' → ∃ cycles' depth', depth' ≤ depth ∧
          (p.withLoop f).runFrom memory symbol arguments limit' = .ok (.finished value output cycles' depth') := by
  refine ⟨fun hmark => if_neg (by rw [hmark]; decide), fun hlast => ?_, runFrom_withLoop hf⟩
  have hself := Procedure.not_callsSymbol_asLoop hlast
  refine ⟨hself, fun honly p memory arguments limit value output cycles depth hfound h => ?_⟩
  obtain ⟨g, k, n, w, hg, -, -, hs, he, -, -, rfl⟩ := returned_of_runFrom h
  cases hfound.symm.trans hg
  have hnone : ∀ s, ¬f.asLoop.CallsSymbol s := by
    rintro s ⟨i, hi, arguments, destination, hop⟩
    rcases Procedure.mem_asLoop hi with hmem | ⟨_, _, hmove⟩ | hgoto | hlabel
    · exact hself ⟨i, hi, arguments, destination, honly s ⟨i, hmem, arguments, destination, hop⟩ ▸ hop⟩
    · cases hmove.symm.trans hop
    · cases hgoto.symm.trans hop
    · cases hlabel.symm.trans hop
  exact (hs.invariant (Machine.Alone.step hnone) ⟨rfl, rfl, rfl⟩).maxCallDepth_eq he

/-- Counts down two numbers by turns. Each is passed on where the other was. -/
def byTurns : Procedure :=
  let u8 := Ty.integer 8 false
  { sum with
    instructions := sum.instructions.take 5 ++ [
      ⟨.call (.function sum.symbol) [⟨.natural 2, u8⟩, ⟨.natural 1, u8⟩] (some ⟨.natural 4, u8⟩), ""⟩,
      ⟨.ret (some ⟨.natural 4, u8⟩), ""⟩] }

theorem byTurns_removes_recursion :
    byTurns.Loopable ∧ byTurns.callsItselfLast = true ∧
      runFrom ⟨"M", [byTurns], [], []⟩ [] sum.symbol [.number 3, .number 5] 100 =
        .ok (.finished (some (.number 2)) [] 39 7) ∧
      ∃ enough, ∀ limit, enough ≤ cyclesAllowed limit → ∃ cycles,
        (withLoop ⟨"M", [byTurns], [], []⟩ byTurns).runFrom [] sum.symbol [.number 3, .number 5] limit =
          .ok (.finished (some (.number 2)) [] cycles 1) := by
  have hconsistent : Consistent ⟨"M", [byTurns], [], []⟩ := by decide
  have hf : byTurns.Loopable := (hconsistent.procedures byTurns (.head _)).loopable (by decide)
  have hlast : byTurns.callsItselfLast = true := by decide
  have hrun : runFrom ⟨"M", [byTurns], [], []⟩ [] sum.symbol [.number 3, .number 5] 100 =
    .ok (.finished (some (.number 2)) [] 39 7) := by decide +kernel
  obtain ⟨-, hloop, hruns⟩ := convertTailCalls_removes_recursion hf
  obtain ⟨enough, hruns⟩ := hruns hrun
  refine ⟨hf, hlast, hrun, enough, fun limit hle => ?_⟩
  obtain ⟨cycles, depth, -, h⟩ := hruns limit hle
  have hdepth : depth = 1 := by
    refine (hloop hlast).2 (fun s hs => ?_) (by decide +kernel) h
    have hcallees : byTurns.callees = [sum.symbol] := by decide
    have hmem := Procedure.mem_callees.mpr hs
    rw [hcallees] at hmem
    exact mem_singleton.mp hmem
  exact ⟨cycles, hdepth ▸ h⟩

end Program

end Retarget
