import Retarget.Proofs.Emit.Llvm.Function
import Retarget.Proofs.Lower.Safety
import Retarget.Proofs.Optimize.Labels

/-!
# Functions in static single assignment form

Lowering gives every parameter a register of its own and numbers its labels, and no pass of the optimiser changes
that. So whatever is emitted for a lowered procedure, optimised or not, is well formed
(`lower_procedureCode_wellFormed`).
-/
namespace Retarget

open Lower List Procedure

/-! ## Lowered procedures -/

theorem CodeTree.Numbered.underscore_mem (h : CodeTree.Numbered low high name) : '_' ∈ name.toList := by
  obtain ⟨_, -, n, rfl, -, -⟩ := h
  simp [toString, String.toList_append]

/-- Parameters have registers that were not there before, each one of its own. -/
theorem Lower.LowersParameters.registers {ctx params s t result} (h : LowersParameters ctx params s result t) :
    result.map (·.register.id) = (range' (s.draft.registers.length + 1) result.length).map .natural := by
  induction h with
  | nil => rfl
  | cons _ _ _ ih =>
    rw [map_cons, ih, length_cons, range'_succ, map_cons]
    simp [State.bound, State.allocated, State.fresh, RegisterTable.fresh]

namespace Llvm

variable {f g : Procedure}

theorem emittable_of_lowered {module final} {p : Program} (hp : p.Assembled module final) (hf : f ∈ p.procedures) :
    Emittable f := by
  obtain ⟨d, -, _, _, name, _, _, t, hlower, -, -⟩ := hp.lowered hf
  obtain ⟨-, hlays⟩ := hlower.lays
  refine ⟨hp.regular hf, ?_, fun name hname => ?_⟩
  · cases hlower with
    | function lowerParameters =>
      rw [parameterIds, lowerParameters.registers]
      exact Nodup.map (fun _ _ => Numeral.natural.inj) nodup_range'
  · refine (hlays.labelled.numbered name ?_).underscore_mem
    rw [CodeTree.labels, ← hlower.operations_eq, filterMap_map]
    exact hname

/-! ## Optimised procedures -/

theorem underscore_mem_of_isLoopLabel (h : IsLoopLabel name) : '_' ∈ name.toList := by
  rcases h with rfl | ⟨k, rfl⟩
  · decide
  · simp [toString, String.toList_append]

theorem Emittable.optimizes (hf : Emittable f) (h : f.Optimizes passes g) : Emittable g where
  regular := h.regular hf.regular
  parameters := by
    rw [parameterIds, h.parameters]
    exact hf.parameters
  compound name hname := by
    obtain ⟨i, hi, hlabel⟩ := mem_filterMap.mp hname
    rcases h.relabels hf.regular i hi name (Operation.eq_label hlabel) with hloop | ⟨j, hj, hlabel⟩
    · exact underscore_mem_of_isLoopLabel hloop
    · exact hf.compound name (mem_filterMap.mpr ⟨j, hj, by rw [hlabel]; rfl⟩)

end Llvm

namespace Source.Module

variable {module : Module} {limits : InstantiationLimits} {p q : Program}

theorem emittable_of_lower (h : module.lower limits = .ok (.ok p))
    (hq : q = p ∨ ∃ passes policy allowsSmc, p.optimize passes policy allowsSmc = .ok (.ok q))
    (hg : g ∈ q.procedures) : Llvm.Emittable g := by
  obtain ⟨_, hp⟩ := assembled_of_lower h
  rcases hq with rfl | ⟨_, _, _, hq⟩
  · exact Llvm.emittable_of_lowered hp hg
  · obtain ⟨f, hf, hoptimizes⟩ := Program.exists_optimizes hq hg
    exact (Llvm.emittable_of_lowered hp hf).optimizes hoptimizes

/-- Whatever is emitted for a procedure of a lowered program, optimised or not, is a function in static single
assignment form that declares the arguments of the procedure. -/
theorem lower_procedureCode_wellFormed (h : module.lower limits = .ok (.ok p))
    (hq : q = p ∨ ∃ passes policy allowsSmc, p.optimize passes policy allowsSmc = .ok (.ok q)) {f : Procedure}
    (hf : f ∈ q.procedures) {code : Llvm.Code} {externals : List String}
    (hcode : (Llvm.procedureCode q f).runFresh = .ok (code, externals)) :
    ∃ d : Llvm.Definition, code.map Line.bare = d.lines ∧ d.Declares f ∧
      d.WellFormed (f.parameterIds.map .argument) :=
  Llvm.exists_definition (emittable_of_lower h hq hf) hcode

/-- Adds up the numbers below one, the last of them first. -/
def total : Source.Module where
  name := "M"
  functions := [⟨"sum", [], [⟨"n", .u8⟩, ⟨"rest", .u8⟩], .u8, [
    .conditional (.comparison .eq (.identifier "n" .u8 none) (.number 0 .u8 none) none)
      [.ret (some (.identifier "rest" .u8 none)) none] none none,
    .ret (some (.call (.function "sum") [
      .binary "-" (.identifier "n" .u8 none) (.number 1 .u8 none) .u8 none,
      .binary "+" (.identifier "rest" .u8 none) (.identifier "n" .u8 none) .u8 none] .u8 none)) none], false, none⟩]
  globals := []

theorem total_procedureCode_wellFormed :
    ∃ p q, total.lower ⟨⟨8, "8"⟩, ⟨8, "8"⟩⟩ = .ok (.ok p) ∧ p.optimize ⟨true, true⟩ .none false = .ok (.ok q) ∧
      ∃ f ∈ q.procedures, ∃ code externals, (Llvm.procedureCode q f).runFresh = .ok (code, externals) ∧
        ∃ d : Llvm.Definition, code.map Line.bare = d.lines ∧ d.Declares f ∧
          d.WellFormed (f.parameterIds.map .argument) := by
  have hemits : ((total.lower ⟨⟨8, "8"⟩, ⟨8, "8"⟩⟩).toOption.bind (·.toOption)).map (fun p =>
      ((p.optimize ⟨true, true⟩ .none false).toOption.bind (·.toOption)).map fun q =>
        q.procedures.map fun f => (Llvm.procedureCode q f).runFresh.toOption.map (·.1.length)) =
      some (some [some 33]) := by
    decide +kernel
  obtain ⟨p, hp, hemits⟩ := Checked.exists_of_map hemits
  obtain ⟨q, hq, hemits⟩ := Checked.exists_of_map hemits
  obtain ⟨f, _, hprocedures, hf, -⟩ := map_eq_cons_iff.mp hemits
  have hmem : f ∈ q.procedures := hprocedures ▸ .head _
  rcases hcode : (Llvm.procedureCode q f).runFresh with _ | ⟨code, externals⟩ <;> rw [hcode] at hf
  · cases hf
  · exact ⟨p, q, hp, hq, f, hmem, code, externals, hcode,
      lower_procedureCode_wellFormed hp (Or.inr ⟨_, _, _, hq⟩) hmem hcode⟩

end Source.Module

end Retarget
