import Retarget.Proofs.Optimize.Assigned

/-!
# Labels and parameters of optimised procedures

The passes leave parameters alone, and bring in no labels but those of the loops that tail calls become.
-/
namespace Retarget

namespace Procedure

variable {f g h : Procedure}

/-- A name that the entry of a loop may have. -/
def IsLoopLabel (name : String) : Prop := name = "tail_recursion_loop" ∨ ∃ k : Nat, name = s!"tail_recursion_loop_{k}"

theorem isLoopLabel_loopLabel (f : Procedure) : IsLoopLabel f.loopLabel := by
  rcases List.mem_cons.mp f.loopLabel_spec.1 with hbase | hmem
  · exact Or.inl hbase
  · obtain ⟨k, -, hk⟩ := List.mem_map.mp hmem
    exact Or.inr ⟨k + 2, hk.symm⟩

/-- Every label was there before, or is that of a loop. -/
def Relabels (f g : Procedure) : Prop :=
  ∀ i ∈ g.instructions, ∀ name, i.operation = .label name →
    IsLoopLabel name ∨ ∃ j ∈ f.instructions, j.operation = .label name

theorem Relabels.refl (f : Procedure) : f.Relabels f := fun i hi _ hlabel => Or.inr ⟨i, hi, hlabel⟩

theorem Relabels.trans (hfg : f.Relabels g) (hgh : g.Relabels h) : f.Relabels h := by
  intro i hi name hlabel
  rcases hgh i hi name hlabel with hloop | ⟨j, hj, hlabel⟩
  · exact Or.inl hloop
  · exact hfg j hj name hlabel

theorem Simplifies.relabels (h : f.Simplifies g) : f.Relabels g := by
  intro i hi name hlabel
  have hold : ∀ {pre old new post : List Instruction}, f.Replaces g pre old new post →
      (∀ j ∈ new, j.operation.isLabel = false) → ∃ j ∈ f.instructions, j.operation = .label name := by
    intro _ _ _ _ hreplaces hnew
    rcases hreplaces.mem hi with hi | hi
    · exact ⟨i, hi, hlabel⟩
    · have hnot := hnew i hi
      rw [hlabel] at hnot
      cases hnot
  cases h with
  | removes replaces | cancels replaces => exact Or.inr (hold replaces (List.forall_mem_nil _))
  | fuses replaces fusion => exact Or.inr (hold replaces (List.forall_mem_singleton.mpr fusion.fuses.isLabel_eq.2.2))

theorem relabels_convertTailCalls (f : Procedure) : f.Relabels f.convertTailCalls := by
  rcases f.convertTailCalls_cases with h | h <;> rw [h]
  · exact .refl f
  · intro i hi _ hlabel
    rcases mem_asLoop hi with hi | ⟨_, _, hop⟩ | hop | hop
    · exact Or.inr ⟨i, hi, hlabel⟩
    · cases hop.symm.trans hlabel
    · cases hop.symm.trans hlabel
    · cases hop.symm.trans hlabel
      exact Or.inl f.isLoopLabel_loopLabel

theorem SameCode.relabels (h : f.SameCode g) : f.Relabels g :=
  fun i hi _ hlabel => Or.inr ⟨i, by rw [← h.instructions]; exact hi, hlabel⟩

theorem PeepholeStage.relabels (h : f.PeepholeStage g) (hf : f.Regular) : f.Relabels g := by
  have hchain := h.simplifies (fun _ hf => hf.tidy) (fun _ _ h hf => h.regular hf) hf
  clear h
  induction hchain with
  | refl => exact .refl f
  | tail _ hstep ih => exact ih.trans hstep.relabels

theorem PeepholeStage.parameters (h : f.PeepholeStage g) : g.parameters = f.parameters := by
  rcases h with rfl | h
  · rfl
  · rw [peephole_eq h]

theorem Optimizes.parameters (h : f.Optimizes passes g) : g.parameters = f.parameters := by
  obtain ⟨_, h₁, _, h₂, _, h₃, _, h₄, h₅⟩ := h.cases
  rw [h₅.face.parameters, h₄.parameters, (sameFace_of_convert h₃).parameters, h₂.face.parameters, h₁.parameters]

theorem Optimizes.relabels (h : f.Optimizes passes g) (hf : f.Regular) : f.Relabels g := by
  obtain ⟨_, h₁, f₂, h₂, f₃, h₃, _, h₄, h₅⟩ := h.cases
  have hf₂ : f₂.Regular := h₂.regular (h₁.regular hf)
  obtain ⟨hf₃, hlabels₃⟩ : f₃.Regular ∧ f₂.Relabels f₃ := by
    rcases h₃ with rfl | rfl
    · exact ⟨hf₂, .refl _⟩
    · exact ⟨hf₂.convertTailCalls, f₂.relabels_convertTailCalls⟩
  exact (((h₁.relabels hf).trans h₂.relabels).trans hlabels₃).trans ((h₄.relabels hf₃).trans h₅.relabels)

end Procedure

/-- Every procedure of an optimised program is what the passes make of one of the program. -/
theorem Program.exists_optimizes {p : Program}
    (h : p.optimize passes policy allowsSmc = .ok (.ok q)) (hg : g ∈ q.procedures) :
    ∃ f ∈ p.procedures, f.Optimizes passes g := by
  obtain ⟨-, -, _, hfs, hchosen⟩ := Program.optimize_cases h
  obtain ⟨f', hf', hg'⟩ := exists_origin hchosen hg
  obtain ⟨f, hf, hf''⟩ := exists_origin hfs hf'
  exact ⟨f, hf, f', hf'', Program.sameCode_of_chooseConvention hg'⟩

end Retarget
