import Retarget.Optimize.Pipeline
import Retarget.Proofs.Optimize.Looping
import Retarget.Proofs.Optimize.Peephole

/-!
# The optimiser

The passes one after another: patterns, the mark of tail recursion, loops for tail calls, patterns again, and
conventions. Each leaves what the next relies on. Of procedures with one symbol only the first is ever run,
so the others need not be considered. What the program means is kept (`optimize_refines`).
-/
namespace Retarget

open Checked List

/-! ## Procedures that are run -/

/-- Of the procedures with one symbol the first. -/
def firsts : List Procedure → List Procedure
  | [] => []
  | f :: fs => f :: (firsts fs).filter (·.symbol ≠ f.symbol)

theorem firsts_subset (h : f ∈ firsts fs) : f ∈ fs := by
  induction fs with
  | nil => exact h
  | cons g fs ih =>
    rcases mem_cons.mp h with rfl | h
    · exact .head _
    · exact .tail _ (ih (mem_filter.mp h).1)

theorem nodup_firsts (fs : List Procedure) : ((firsts fs).map (·.symbol)).Nodup := by
  induction fs with
  | nil => exact nodup_nil
  | cons f fs ih =>
    refine nodup_cons.mpr ⟨fun h => ?_, ih.sublist (filter_sublist.map _)⟩
    obtain ⟨g, hg, hs⟩ := mem_map.mp h
    exact of_decide_eq_true (mem_filter.mp hg).2 hs

theorem find?_firsts (fs : List Procedure) (symbol : Symbol) :
    (firsts fs).find? (·.symbol = symbol) = fs.find? (·.symbol = symbol) := by
  induction fs with
  | nil => rfl
  | cons f fs ih =>
    by_cases hs : f.symbol = symbol
    · rw [firsts, find?_cons_of_pos (by simpa using hs), find?_cons_of_pos (by simpa using hs)]
    · rw [firsts, find?_cons_of_neg (by simpa using hs), find?_cons_of_neg (by simpa using hs), ← ih,
        find?_filter]
      congr 1
      funext g
      by_cases hg : g.symbol = symbol
      · simp [hg, Ne.symm hs]
      · simp [hg]

theorem forall₂_firsts {R : Procedure → Procedure → Prop} (hR : ∀ f g, R f g → g.symbol = f.symbol)
    (h : Forall₂ R fs gs) : Forall₂ R (firsts fs) (firsts gs) := by
  induction h with
  | nil => exact .nil
  | cons hfg _ ih =>
    refine .cons hfg (rel_filter (fun f' g' hfg' => ?_) ih)
    simp [hR _ _ hfg, hR _ _ hfg']

namespace Program

/-- The program without the procedures that are never run. -/
def withoutDuplicates (p : Program) : Program := { p with procedures := firsts p.procedures }

theorem find?_withoutDuplicates (p : Program) (symbol : Symbol) : p.withoutDuplicates.find? symbol = p.find? symbol :=
  find?_firsts p.procedures symbol

/-- Programs with the same data that find the same procedures run alike. -/
theorem runFunction_congr {p q : Program} (hfind : ∀ symbol, q.find? symbol = p.find? symbol)
    (hmemory : q.initialMemory = p.initialMemory) (symbol : Symbol) (args : List Value) (limit : Number) :
    q.runFunction symbol args limit = p.runFunction symbol args limit := by
  have hrun : ∀ cycles (m : Machine), m.run q limit cycles = m.run p limit cycles := by
    intro cycles
    induction cycles with
    | zero =>
      intro m
      unfold Machine.run
      rfl
    | succ _ ih =>
      intro m
      unfold Machine.run
      simp only [Machine.execute, hfind, ih]
  unfold runFunction
  simp only [hfind, initialWorld, hmemory, hrun]

theorem runFunction_withoutDuplicates (p : Program) (symbol : Symbol) (args : List Value) (limit : Number) :
    p.withoutDuplicates.runFunction symbol args limit = p.runFunction symbol args limit :=
  runFunction_congr p.find?_withoutDuplicates rfl symbol args limit

theorem Consistent.withoutDuplicates {p : Program} (hp : p.Consistent) : p.withoutDuplicates.Consistent where
  procedures f hf := by
    obtain ⟨h₁, h₂, h₃, h₄, h₅, h₆, h₇⟩ := hp.procedures f (firsts_subset hf)
    refine ⟨h₁, h₂, h₃, h₄, h₅, h₆, fun i hi => ?_⟩
    have hi := h₇ i hi
    cases hop : i.operation with
    | call target =>
      rw [hop] at hi
      cases target with
      | routine => trivial
      | function symbol =>
        obtain ⟨g, hg, hrest⟩ := hi
        exact ⟨g, (p.find?_withoutDuplicates symbol).trans hg, hrest⟩
    | addressOf symbol =>
      rw [hop] at hi
      cases symbol <;> exact hi
    | _ =>
      rw [hop] at hi
      exact hi
  globals g hg := ⟨(hp.globals g hg).type, (hp.globals g hg).initializer⟩

theorem Refines.of_withoutDuplicates {p q : Program}
    (h : p.withoutDuplicates.Refines q.withoutDuplicates symbol args) : p.Refines q symbol args where
  returns hp := by
    rw [← runFunction_withoutDuplicates] at hp
    simpa only [runFunction_withoutDuplicates] using h.returns hp
  fails hp hproper := by
    rw [← runFunction_withoutDuplicates] at hp
    simpa only [runFunction_withoutDuplicates] using h.fails hp hproper
  goesOn hp := by
    simp only [← p.runFunction_withoutDuplicates] at hp
    simpa only [runFunction_withoutDuplicates] using h.goesOn hp

end Program

/-! ## Stages -/

/-- Patterns are applied, or the stage is skipped. -/
def Procedure.PeepholeStage (f g : Procedure) : Prop := g = f ∨ f.peephole = .ok g

namespace Procedure

/-- The peephole pass, if it is one of those chosen. -/
def simplified (passes : Passes) (f : Procedure) : Checked Procedure := if passes.peephole then f.peephole else .ok f

theorem peepholeStage_of_simplified {f : Procedure} (h : f.simplified passes = .ok g) : f.PeepholeStage g := by
  unfold simplified at h
  split at h
  · exact Or.inr h
  · cases h
    exact Or.inl rfl

theorem optimize_eq (passes : Passes) (f : Procedure) : f.optimize passes = do
    let q ← f.simplified passes
    if passes.tailCalls && q.callsItselfLast then q.asLoop.simplified passes
    else return { q with isTailRecursive := q.callsItselfLast } := by
  have hconvert (q : Procedure) :
      (let r := { q with isTailRecursive := q.callsItselfLast }
        if passes.tailCalls && r.isTailRecursive then r.convertTailCalls.simplified passes else .ok r) =
      if passes.tailCalls && q.callsItselfLast then q.asLoop.simplified passes
      else .ok { q with isTailRecursive := q.callsItselfLast } := by
    cases passes.tailCalls <;> cases q.callsItselfLast <;> rfl
  unfold optimize
  unfold simplified at hconvert ⊢
  cases hpeephole : passes.peephole <;> rw [hpeephole] at hconvert
  · exact hconvert f
  · exact congrArg (Except.bind _) (funext hconvert)

/-- What becomes of a procedure before conventions are chosen. -/
theorem optimize_cases {f : Procedure} (h : f.optimize passes = .ok g) :
    ∃ f₁, f.PeepholeStage f₁ ∧ ∃ f₂, f₁.SameCode f₂ ∧
      ∃ f₃, (f₃ = f₂ ∨ f₃ = f₂.convertTailCalls) ∧ f₃.PeepholeStage g := by
  rw [optimize_eq] at h
  obtain ⟨f₁, hf₁, h⟩ := bind_eq_ok.mp h
  refine ⟨f₁, peepholeStage_of_simplified hf₁, ?_⟩
  split at h
  · exact ⟨{ f₁ with isTailRecursive := true }, ⟨⟨rfl, rfl, rfl⟩, rfl, rfl⟩, _, Or.inr rfl,
      peepholeStage_of_simplified h⟩
  · cases h
    exact ⟨{ f₁ with isTailRecursive := f₁.callsItselfLast }, ⟨⟨rfl, rfl, rfl⟩, rfl, rfl⟩, _, Or.inl rfl, Or.inl rfl⟩

end Procedure

theorem Program.sameCode_of_chooseConvention {p : Program}
    (h : p.chooseConvention policy allowsSmc f = .ok (.ok g)) : f.SameCode g := by
  unfold chooseConvention at h
  split at h
  · obtain ⟨cycle, -, h⟩ := bind_eq_ok.mp h
    cases cycle with
    | none =>
      cases h
      exact ⟨⟨rfl, rfl, rfl⟩, rfl, rfl⟩
    | some =>
      obtain ⟨_, -, h⟩ := bind_eq_ok.mp h
      cases h
  · cases h
    exact ⟨⟨rfl, rfl, rfl⟩, rfl, rfl⟩

/-- Place by place, a procedure of an optimised program comes from one of the program. -/
theorem Program.optimize_cases {p : Program} (h : p.optimize passes policy allowsSmc = .ok (.ok q)) :
    q.globals = p.globals ∧ q.literals = p.literals ∧
      ∃ fs, Forall₂ (fun f g => f.optimize passes = .ok g) p.procedures fs ∧
        Forall₂ (fun f g => chooseConvention { p with procedures := fs } policy allowsSmc f = .ok (.ok g))
          fs q.procedures := by
  unfold optimize at h
  obtain ⟨fs, hfs, h⟩ := bind_eq_ok.mp h
  obtain ⟨results, hresults, h⟩ := bind_eq_ok.mp h
  cases hgs : Outcome.collect results with
  | error =>
    rw [hgs] at h
    cases h
  | ok =>
    rw [hgs] at h
    cases h
    obtain rfl := Outcome.eq_of_collect hgs
    have hchosen := forall₂_map_right_iff.mp (forall₂_of_mapM hresults)
    exact ⟨rfl, rfl, fs, forall₂_of_mapM hfs, hchosen⟩

namespace Procedure

variable {f g : Procedure}

theorem PeepholeStage.symbol (h : f.PeepholeStage g) : g.symbol = f.symbol := by
  rcases h with rfl | h
  · rfl
  · rw [peephole_eq h]

/-- The stage is a chain of steps that keep what makes the procedure one to be simplified. -/
theorem PeepholeStage.simplifies {Good : Procedure → Prop} (h : f.PeepholeStage g) (htidy : ∀ f, Good f → f.Tidy)
    (hgood : ∀ f g, f.Simplifies g → Good f → Good g) (hf : Good f) : Relation.ReflTransGen Simplifies f g := by
  rcases h with rfl | h
  · exact .refl
  · exact simplifies_of_peephole htidy hgood hf h

/-- The whole way of a procedure through the optimiser. -/
def Optimizes (passes : Passes) (f g : Procedure) : Prop := ∃ f', f.optimize passes = .ok f' ∧ f'.SameCode g

theorem Optimizes.cases (h : f.Optimizes passes g) :
    ∃ f₁, f.PeepholeStage f₁ ∧ ∃ f₂, f₁.SameCode f₂ ∧
      ∃ f₃, (f₃ = f₂ ∨ f₃ = f₂.convertTailCalls) ∧ ∃ f₄, f₃.PeepholeStage f₄ ∧ f₄.SameCode g := by
  obtain ⟨f₄, hf₄, hg⟩ := h
  obtain ⟨f₁, h₁, f₂, h₂, f₃, h₃, h₄⟩ := optimize_cases hf₄
  exact ⟨f₁, h₁, f₂, h₂, f₃, h₃, f₄, h₄, hg⟩

theorem Optimizes.symbol (h : f.Optimizes passes g) : g.symbol = f.symbol := by
  obtain ⟨_, h₁, _, h₂, _, h₃, _, h₄, h₅⟩ := h.cases
  rw [h₅.face.symbol, h₄.symbol, (sameFace_of_convert h₃).symbol, h₂.face.symbol, h₁.symbol]

end Procedure

namespace Program

variable {p q : Program}

theorem Preserves.of_peepholeStage (hp : p.Consistent) (h : p.Corresponds Procedure.PeepholeStage q) : p.Preserves q :=
  .of_simplifies hp ⟨h.globals, h.literals, forall₂_of_mem h.procedures fun f hf _ hfg =>
    hfg.simplifies (fun _ h => h.tidy) (fun _ _ h hf => h.consistent hf) (hp.procedures f hf)⟩

theorem Preserves.of_sameCode (hp : p.Consistent) (h : p.Corresponds Procedure.SameCode q) : p.Preserves q :=
  .of_simulated hp h (fun _ _ h => h.face) (fun _ _ h => h.consistent) fun _ _ h _ => h.simulated

theorem Preserves.symbols (h : p.Preserves q) : q.procedures.map (·.symbol) = p.procedures.map (·.symbol) := by
  have hprocedures := h.corresponds.procedures
  generalize p.procedures = fs, q.procedures = gs at hprocedures
  induction hprocedures with
  | nil => rfl
  | cons hfg _ ih => simp only [map_cons, hfg.symbol, ih]

/-- The passes, one after another, are right for a program that has no two procedures of one symbol. -/
theorem Preserves.of_optimizes (hp : p.Consistent) (hd : (p.procedures.map (·.symbol)).Nodup)
    (h : p.Corresponds (Procedure.Optimizes passes) q) : p.Preserves q := by
  have hcases := h.procedures.imp fun _ _ => Procedure.Optimizes.cases
  obtain ⟨fs₁, h₁, hcases⟩ := forall₂_comp hcases
  obtain ⟨fs₂, h₂, hcases⟩ := forall₂_comp hcases
  obtain ⟨fs₃, h₃, hcases⟩ := forall₂_comp hcases
  obtain ⟨fs₄, h₄, h₅⟩ := forall₂_comp hcases
  have hp₁ : p.Preserves { p with procedures := fs₁ } := .of_peepholeStage hp ⟨rfl, rfl, h₁⟩
  have hp₂ := hp₁.trans (q := { p with procedures := fs₁ }) (r := { p with procedures := fs₂ })
    (.of_sameCode hp₁.consistent ⟨rfl, rfl, h₂⟩)
  have hp₃ := hp₂.trans (q := { p with procedures := fs₂ }) (r := { p with procedures := fs₃ })
    (.of_convertTailCalls hp₂.consistent (hp₂.symbols ▸ hd) ⟨rfl, rfl, h₃⟩)
  have hp₄ := hp₃.trans (q := { p with procedures := fs₃ }) (r := { p with procedures := fs₄ })
    (.of_peepholeStage hp₃.consistent ⟨rfl, rfl, h₄⟩)
  exact hp₄.trans (.of_sameCode hp₄.consistent ⟨h.globals, h.literals, h₅⟩)

/-- The optimiser keeps what type-consistent programs mean: the optimised program returns the same values with
the same output, no deeper in calls, fails alike and goes on for ever alike. -/
theorem optimize_refines {passes : Passes} {policy : SmcPolicy} {allowsSmc : Bool} (hp : p.Consistent)
    (hn : p.blockNames.Nodup) (h : p.optimize passes policy allowsSmc = .ok (.ok q)) {symbol : Symbol}
    {arguments : List Value} (ha : p.AcceptsCall symbol arguments) : p.Refines q symbol arguments := by
  obtain ⟨hglobals, hliterals, _, hfs, hchosen⟩ := optimize_cases h
  have hoptimizes : List.Forall₂ (Procedure.Optimizes passes) p.procedures q.procedures :=
    forall₂_trans (fun _ f' _ hf' hg => ⟨f', hf', sameCode_of_chooseConvention hg⟩) hfs hchosen
  have hpreserves : p.withoutDuplicates.Preserves q.withoutDuplicates :=
    .of_optimizes hp.withoutDuplicates (nodup_firsts _)
      ⟨hglobals, hliterals, forall₂_firsts (fun _ _ => Procedure.Optimizes.symbol) hoptimizes⟩
  refine .of_withoutDuplicates (hpreserves.refines hn fun f hf => ?_)
  rw [find?_withoutDuplicates] at hf
  exact ha f hf

/-- The same, with a jump in place of the call. -/
def sumAsLoop : Procedure :=
  { sum with
    instructions := ⟨.label "tail_recursion_loop", "Tail recursion re-enters here"⟩ ::
      sum.instructions.take 6 ++ [⟨.goto "tail_recursion_loop", "Tail call becomes a loop"⟩]
    isTailRecursive := true }

theorem sum_optimize_refines :
    Program.optimize ⟨"M", [sum], [], []⟩ ⟨true, true⟩ .none false = .ok (.ok ⟨"M", [sumAsLoop], [], []⟩) ∧
      Program.Refines ⟨"M", [sum], [], []⟩ ⟨"M", [sumAsLoop], [], []⟩ sum.symbol [.number 3, .number 4] := by
  have h : optimize ⟨"M", [sum], [], []⟩ ⟨true, true⟩ .none false =
    .ok (.ok ⟨"M", [sumAsLoop], [], []⟩) := by decide +kernel
  exact ⟨h, optimize_refines (by decide) (by decide) h (by decide)⟩

/-- Blocks need names of their own: else a step up and one down wrap a number that was out of range before
them, and leaving them out does not. -/
theorem sharedBlock_optimize_not_refines :
    (sharedBlock [.increment, .decrement]).Consistent ∧
      (sharedBlock [.increment, .decrement]).AcceptsCall ⟨"str_0", "f", []⟩ [] ∧
      (sharedBlock [.increment, .decrement]).optimize ⟨true, true⟩ .none false = .ok (.ok (sharedBlock [])) ∧
      ¬ (sharedBlock [.increment, .decrement]).Refines (sharedBlock []) ⟨"str_0", "f", []⟩ [] := by
  refine ⟨by decide, by decide, by decide +kernel, fun h => ?_⟩
  have hp : (sharedBlock [.increment, .decrement]).runFunction ⟨"str_0", "f", []⟩ [] 10 =
    .ok (.finished (some (.number (.ofInt (-56)))) [] 5 1) := by decide +kernel
  have hq : (sharedBlock []).runFunction ⟨"str_0", "f", []⟩ [] 10 =
    .ok (.finished (some (.number 200)) [] 3 1) := by decide +kernel
  exact absurd (h.finished_eq hp hq).1 (by decide)

end Program

end Retarget
