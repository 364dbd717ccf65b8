import Retarget.Proofs.Lower.Assembly
import Retarget.Proofs.Lower.Assigned
import Retarget.Proofs.Optimize.Assigned
import Retarget.Proofs.Optimize.Reentry
import Retarget.Proofs.Run.Assigned

/-!
# Lowered programs keep their course

What lowering makes of a module reads only what is assigned, jumps only to labels that are there and calls only
functions that are there, and so does what the optimiser makes of it. No run of either comes to a label or a
function that is missing. A register without a value is read only if it was to be loaded from between two cells,
which can happen if an index is a fraction (`lower_keepsCourse`).
-/
namespace Retarget

open Lower Procedure

theorem CodeTree.Numbered.ne_empty (h : CodeTree.Numbered low high name) : name ≠ "" := by
  obtain ⟨_, -, n, rfl, -, -⟩ := h
  intro hempty
  have hlength := congrArg String.length hempty
  simp at hlength

namespace Program

variable {module : Source.Module} {final : Shared} {p q : Program} {f : Procedure}

/-- A lowered procedure is as the passes ask for. -/
theorem Assembled.regular (hp : p.Assembled module final) (hf : f ∈ p.procedures) : f.Regular := by
  have hwell := hp.procedure_wellFormed hf
  obtain ⟨d, -, _, _, _, code, _, t, hlower, -, -⟩ := hp.lowered hf
  obtain ⟨-, hlays⟩ := hlower.lays
  refine ⟨⟨hwell.jumps, hlower.flows⟩, hwell.numbered, hwell.parameters, hwell.mentions, hwell.labels,
    fun i hi hlabel => ?_, fun i hi operator l r d hop => ?_⟩
  · have hmem : "" ∈ code.labels := by
      refine List.mem_filterMap.mpr ⟨i.operation, ?_, by rw [hlabel]; rfl⟩
      rw [← hlower.operations_eq]
      exact List.mem_map_of_mem hi
    exact (hlays.labelled.numbered "" hmem).ne_empty rfl
  · have hshaped := hwell.shaped i hi
    rw [hop] at hshaped
    exact hshaped

theorem Assembled.callees (hp : p.Assembled module final) (hf : f ∈ p.procedures) {symbol} (hs : symbol ∈ f.callees) :
    ∃ g, p.find? symbol = some g := by
  obtain ⟨i, hi, _, _, hop⟩ := mem_callees.mp hs
  have hlinked := (hp.procedure_wellFormed hf).linked i hi
  rw [hop] at hlinked
  exact hlinked

/-- The optimiser keeps procedures prepared, and calls no functions that were not called before. -/
theorem Prepared.optimizes (hregular : ∀ f ∈ p.procedures, f.Regular)
    (hlinked : ∀ f ∈ p.procedures, ∀ symbol ∈ f.callees, ∃ g, p.find? symbol = some g)
    (h : p.Corresponds (Optimizes passes) q) : q.Prepared where
  procedures g hg := by
    obtain ⟨f, hf, hfg⟩ := exists_origin h.procedures hg
    exact (hfg.regular (hregular f hf)).prepared
  linked g hg symbol hs := by
    obtain ⟨f, hf, hfg⟩ := exists_origin h.procedures hg
    obtain ⟨_, hf'⟩ := hlinked f hf symbol (hfg.callees symbol hs)
    obtain ⟨g', hg', -⟩ := h.exists_find? (fun _ _ => Optimizes.symbol) hf'
    exact ⟨g', hg'⟩

end Program

namespace Source.Module

variable {module : Module} {limits : InstantiationLimits} {p q : Program}

/-- No run of a lowered program, optimised or not, comes to a label or a function that is missing, and none reads a
register without a value, unless it was loaded from an address at which its block holds nothing. -/
theorem lower_keepsCourse (h : module.lower limits = .ok (.ok p))
    (hq : q = p ∨ ∃ passes policy allowsSmc, p.optimize passes policy allowsSmc = .ok (.ok q))
    (symbol : Symbol) (arguments : List Value) (limit : Number) : q.KeepsCourse symbol arguments limit := by
  obtain ⟨_, hp⟩ := assembled_of_lower h
  have hregular (f : Procedure) (hf : f ∈ p.procedures) : f.Regular := hp.regular hf
  have hlinked (f : Procedure) (hf : f ∈ p.procedures) (s : Symbol) (hs : s ∈ f.callees) :
      ∃ g, p.find? s = some g := hp.callees hf hs
  refine Program.Prepared.keepsCourse ?_ symbol arguments limit
  rcases hq with rfl | ⟨passes, _, _, hq⟩
  · exact ⟨fun f hf => (hregular f hf).prepared, hlinked⟩
  · obtain ⟨hglobals, hliterals, _, hfs, hchosen⟩ := Program.optimize_cases hq
    have hoptimizes : List.Forall₂ (Optimizes passes) p.procedures q.procedures :=
      forall₂_trans (fun _ f' _ hf' hg => ⟨f', hf', Program.sameCode_of_chooseConvention hg⟩) hfs hchosen
    exact .optimizes hregular hlinked ⟨hglobals, hliterals, hoptimizes⟩

/-- Looks a number up in a table. -/
def lookup : Source.Module where
  name := "M"
  functions := [⟨"f", [], [⟨"i", .u8⟩], .u8, [.ret (some (.index "a" (.identifier "i" .u8 none) .u8 none)) none],
    false, none⟩]
  globals := [⟨"a", .array .u8 3, some (.list [1, 2, 3])⟩]

/-- The optimised lookup at a half reads a register that its load left without a value. -/
theorem lookup_loses : ∃ p q, lookup.lower ⟨⟨8, "8"⟩, ⟨8, "8"⟩⟩ = .ok (.ok p) ∧
    p.optimize ⟨true, true⟩ .none false = .ok (.ok q) ∧
    q.Loses ⟨"M", "f", []⟩ [.number (.dyadic 1 1)] 10 5 "M_f" := by
  have hruns : ((lookup.lower ⟨⟨8, "8"⟩, ⟨8, "8"⟩⟩).toOption.bind (·.toOption)).map (fun p =>
      ((p.optimize ⟨true, true⟩ .none false).toOption.bind (·.toOption)).map
        (·.runFunction ⟨"M", "f", []⟩ [.number (.dyadic 1 1)] 10)) =
      some (some (.ok (.failed (.uninitialized 5 "M_f") []))) := by
    decide +kernel
  obtain ⟨p, hlower, hruns⟩ := Checked.exists_of_map hruns
  obtain ⟨q, hq, hruns⟩ := Checked.exists_of_map hruns
  have hcourse := lower_keepsCourse hlower (Or.inr ⟨_, _, _, hq⟩) ⟨"M", "f", []⟩ [.number (.dyadic 1 1)] 10
  exact ⟨p, q, hlower, hq, hcourse.registers _ _ _ hruns⟩

/-- A lookup at a half is inside the table but between two of its numbers, and what it gives is returned. -/
theorem lookup_uninitialized : ∃ p, lookup.lower ⟨⟨8, "8"⟩, ⟨8, "8"⟩⟩ = .ok (.ok p) ∧
    p.runFunction ⟨"M", "f", []⟩ [.number (.dyadic 1 1)] 10 = .ok (.failed (.uninitialized 5 "M_f") []) := by
  have hruns : ((lookup.lower ⟨⟨8, "8"⟩, ⟨8, "8"⟩⟩).toOption.bind (·.toOption)).map
      (·.runFunction ⟨"M", "f", []⟩ [.number (.dyadic 1 1)] 10) = some (.ok (.failed (.uninitialized 5 "M_f") [])) := by
    decide +kernel
  exact Checked.exists_of_map hruns

end Source.Module

end Retarget
