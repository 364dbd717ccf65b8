import Retarget.Proofs.Optimize.Recursion
import Retarget.Proofs.Optimize.Reentry

/-!
# Optimising what is optimised

Every step of simplification takes an instruction away, so simplification comes to code in which nothing matches. A
procedure that became a loop calls itself no more, and no pattern puts a call in. So the optimiser leaves alone what
it has made (`optimize_idempotent`).
-/
namespace Retarget

open Peephole List

namespace Operation

variable {φ : Register → Register} {operation : Operation} {node : String}

@[simp] theorem mapWrites_eq_unknown : operation.mapWrites φ = .unknown node ↔ operation = .unknown node := by
  cases operation <;> simp [mapWrites]

@[simp] theorem mapReads_eq_unknown : operation.mapReads φ = .unknown node ↔ operation = .unknown node := by
  cases operation <;> simp [mapReads]

end Operation

namespace Peephole

variable {parameters : List Numeral} {pattern : Pattern} {applied : List Pattern} {is is' : List Instruction}

/-- All operations are of kinds that are known. -/
def KnownKinds (is : List Instruction) : Prop := ∀ i ∈ is, ∀ node, i.operation ≠ .unknown node

/-- A whole run of simplification: the patterns that apply one after the other, until none does. -/
inductive Runs (parameters : List Numeral) : List Pattern → List Instruction → List Instruction → Prop
  | done {is : List Instruction} (still : step? parameters is = none) : Runs parameters [] is is
  | step {pattern : Pattern} {applied : List Pattern} {is is' is'' : List Instruction}
      (first : step? parameters is = some (pattern, is')) (rest : Runs parameters applied is' is'') :
      Runs parameters (pattern :: applied) is is''

/-! ## Steps -/

/-- Two instructions become one at most, and none of a kind that is not known. -/
theorem of_replaceTwo? (h : pattern.replaceTwo? facts x y = some new) :
    new.length < 2 ∧ ∀ i ∈ new, ∀ node, i.operation = .unknown node →
      x.operation = .unknown node ∨ y.operation = .unknown node := by
  unfold Pattern.replaceTwo? at h
  split at h
  case h_4 => -- a comparison with zero
    dsimp only at h
    split at h
    · obtain ⟨_, -, hnew⟩ := Option.bind_eq_some_iff.mp h
      obtain ⟨_, -, rfl⟩ := Option.map_eq_some_iff.mp hnew
      simp
    · cases h
  all_goals
    repeat' split at h
    all_goals cases h
    all_goals simp

/-- A step makes the code shorter, and keeps to operations of known kinds. -/
theorem of_step? (h : step? params is = some (pattern, is')) :
    is'.length < is.length ∧ (KnownKinds is → KnownKinds is') := by
  obtain ⟨_, old, new, _, rfl, rfl, hm⟩ := matches_of_simplifyFirst? h
  obtain ⟨hlen, hkinds⟩ : new.length < old.length ∧ (KnownKinds old → KnownKinds new) := by
    cases hm with
    | one replaced =>
      unfold Pattern.replaceOne? at replaced
      repeat' split at replaced
      all_goals cases replaced
      all_goals exact ⟨Nat.one_pos, fun _ => forall_mem_nil _⟩
    | two replaced =>
      obtain ⟨hlen, hkinds⟩ := of_replaceTwo? replaced
      refine ⟨hlen, fun hold i hi node hop => ?_⟩
      rcases hkinds i hi node hop with hx | hy
      · exact hold _ (.head _) node hx
      · exact hold _ (.tail _ (.head _)) node hy
  refine ⟨by simpa using hlen, fun hknown => ?_⟩
  simp only [KnownKinds, forall_mem_append] at hknown ⊢
  exact ⟨⟨hknown.1.1, hkinds hknown.1.2⟩, hknown.2⟩

/-! ## Runs -/

namespace Runs

theorem still (h : Runs params applied is is') : step? params is' = none := by
  induction h with
  | done still => exact still
  | step _ _ ih => exact ih

theorem knownKinds (h : Runs params applied is is') (hknown : KnownKinds is) : KnownKinds is' := by
  induction h with
  | done => exact hknown
  | step first _ ih => exact ih ((of_step? first).2 hknown)

/-- There are no more steps than there are instructions that go. -/
theorem length_le (h : Runs params applied is is') : applied.length + is'.length ≤ is.length := by
  induction h with
  | done => exact (Nat.zero_add _).le
  | step first =>
    have hlt := (of_step? first).1
    rw [length_cons]
    omega

end Runs

/-- As many rounds as there are instructions are enough. -/
theorem runs_simplify (params : List Numeral) {is} (h : is.length ≤ rounds) :
    Runs params (simplify params rounds is).1 is (simplify params rounds is).2 := by
  induction rounds generalizing is with
  | zero =>
    obtain rfl := eq_nil_of_length_eq_zero (Nat.le_zero.mp h)
    exact .done rfl
  | succ _ ih =>
    unfold simplify
    split
    · exact .done ‹_›
    · rename_i pattern is' hstep
      have hlt := (of_step? hstep).1
      exact .step hstep (ih (by omega))

end Peephole

namespace Procedure

variable {f g : Procedure}

theorem peepholeTrace_of_known (hf : KnownKinds f.instructions) :
    f.peepholeTrace = .ok ((simplify f.parameterIds f.instructions.length f.instructions).1,
      { f with instructions := (simplify f.parameterIds f.instructions.length f.instructions).2 }) := by
  have hknown : f.instructions.forM (·.operation.known "reads") = .ok ⟨⟩ := by
    refine Checked.forM_eq_ok fun i hi => ?_
    have hi := hf i hi
    unfold Operation.known
    split
    · exact absurd ‹_› (hi _)
    · rfl
  unfold peepholeTrace
  rw [hknown]
  rfl

/-- A procedure in which nothing matches is left alone. -/
theorem peepholeTrace_of_still (hf : KnownKinds f.instructions) (hstill : step? f.parameterIds f.instructions = none) :
    f.peepholeTrace = .ok ([], f) := by
  have hsimplify : simplify f.parameterIds f.instructions.length f.instructions = ([], f.instructions) := by
    cases f.instructions.length <;> simp only [simplify, hstill]
  rw [peepholeTrace_of_known hf, hsimplify]

theorem callsItselfLast_eq_false (h : ¬f.CallsSymbol f.symbol) : f.callsItselfLast = false := by
  have hnone : f.selfCalls = [] := by
    simp only [selfCalls, map_eq_nil_iff, filter_eq_nil_iff]
    intro entry hentry hcalls
    exact h ⟨entry.1, fst_mem_of_mem_zipIdx hentry, Operation.calls_iff.mp hcalls⟩
  simp [callsItselfLast, hnone]

/-- What the optimiser makes: nothing matches any more, and there is no tail call to convert. -/
structure Optimized (passes : Passes) (f : Procedure) : Prop where
  known : KnownKinds f.instructions
  still : passes.peephole = true → step? f.parameterIds f.instructions = none
  loops : passes.tailCalls = true → f.callsItselfLast = false

/-- The optimiser leaves alone what is optimised, up to the mark of tail recursion. -/
theorem Optimized.optimize (h : f.Optimized passes) :
    f.optimize passes = .ok { f with isTailRecursive := f.callsItselfLast } := by
  have hsimplified : f.simplified passes = .ok f := by
    unfold simplified
    split
    · rename_i hon
      rw [peephole, peepholeTrace_of_still h.known (h.still hon)]
      rfl
    · rfl
  have hloops : (passes.tailCalls && f.callsItselfLast) = false := by
    cases htail : passes.tailCalls with
    | false => rfl
    | true => exact h.loops htail
  rw [optimize_eq, hsimplified]
  exact if_neg (Bool.eq_false_iff.mp hloops)

theorem exists_simplified (hf : KnownKinds f.instructions) (passes : Passes) :
    ∃ is, f.simplified passes = .ok { f with instructions := is } ∧ KnownKinds is ∧ Within f.instructions is ∧
      (passes.peephole = true → step? f.parameterIds is = none) := by
  unfold simplified
  cases passes.peephole with
  | false => exact ⟨f.instructions, rfl, hf, .of_subset fun _ h => h, nofun⟩
  | true =>
    have hruns := runs_simplify f.parameterIds (le_refl f.instructions.length)
    refine ⟨_, ?_, hruns.knownKinds hf, within_simplify _ _ _, fun _ => hruns.still⟩
    rw [if_pos rfl, peephole, peepholeTrace_of_known hf]
    rfl

/-- The optimiser succeeds, and what it makes is optimised. -/
theorem exists_optimized (hf : KnownKinds f.instructions) (passes : Passes) :
    ∃ g, f.optimize passes = .ok g ∧ g.Optimized passes := by
  obtain ⟨is, hsimplified, hknown, -, hstill⟩ := exists_simplified hf passes
  rw [optimize_eq, hsimplified]
  generalize hq : { f with instructions := is } = q
  show ∃ g, (if passes.tailCalls && q.callsItselfLast then q.asLoop.simplified passes else .ok _) = .ok g ∧ _
  split
  · rename_i hlast
    have hlast := (Bool.and_eq_true_iff.mp hlast).2
    have hloop : KnownKinds q.asLoop.instructions := by
      intro i hi node hop
      rcases mem_asLoop hi with hi | ⟨_, _, hi⟩ | hi | hi
      · subst hq
        exact hknown i hi node hop
      all_goals cases hi.symm.trans hop
    obtain ⟨_, hsimplified', hknown', hwithin, hstill'⟩ := exists_simplified hloop passes
    refine ⟨_, hsimplified', hknown', hstill', fun _ => callsItselfLast_eq_false ?_⟩
    intro hcalls
    exact not_callsSymbol_asLoop hlast (mem_callees.mp (callees_subset hwithin _ (mem_callees.mpr hcalls)))
  · rename_i hlast
    subst hq
    refine ⟨_, rfl, hknown, hstill, fun htail => ?_⟩
    rwa [htail, Bool.true_and, Bool.not_eq_true] at hlast

/-- Optimising is idempotent: a second time it changes neither code nor registers. If patterns are applied at all,
then none is left to apply. However that may be, patterns apply to a procedure no more often than it has
instructions, until none does. -/
theorem optimize_idempotent (hf : KnownKinds f.instructions) (passes : Passes) :
    (∃ g h, f.optimize passes = .ok g ∧ g.optimize passes = .ok h ∧ h.instructions = g.instructions ∧
      h.registers = g.registers ∧ (passes.peephole = true → g.peepholeTrace = .ok ([], g))) ∧
    ∃ applied g, f.peepholeTrace = .ok (applied, g) ∧ Runs f.parameterIds applied f.instructions g.instructions ∧
      applied.length ≤ f.instructions.length := by
  constructor
  · obtain ⟨g, hg, hoptimized⟩ := exists_optimized hf passes
    refine ⟨g, _, hg, hoptimized.optimize, rfl, rfl, fun hon => ?_⟩
    exact peepholeTrace_of_still hoptimized.known (hoptimized.still hon)
  · have hruns := runs_simplify f.parameterIds (le_refl f.instructions.length)
    exact ⟨_, _, peepholeTrace_of_known hf, hruns, (Nat.le_add_right _ _).trans hruns.length_le⟩

/-- A sum that calls itself becomes a loop, and stays one. -/
theorem sum_optimize_idempotent :
    KnownKinds Program.sum.instructions ∧ Program.sum.callsItselfLast = true ∧
      ∃ g h, Program.sum.optimize ⟨true, true⟩ = .ok g ∧ g.optimize ⟨true, true⟩ = .ok h ∧
        h.instructions = g.instructions ∧ h.registers = g.registers ∧ g.peepholeTrace = .ok ([], g) := by
  have hknown : KnownKinds Program.sum.instructions := by simp [KnownKinds, Program.sum]
  obtain ⟨g, h, hg, hh, his, hrs, hstill⟩ := (optimize_idempotent hknown ⟨true, true⟩).1
  exact ⟨hknown, by decide, g, h, hg, hh, his, hrs, hstill rfl⟩

end Procedure

end Retarget
