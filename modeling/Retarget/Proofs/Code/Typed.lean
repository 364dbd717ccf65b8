import Retarget.Proofs.Code.Consistent

/-!
# Typed programs

As much of consistency as types need: every register has one type, and operations join registers of fitting
types. The table of registers, the labels and functions that are called but not there do not matter.
-/
namespace Retarget

open List

namespace Procedure

def mentioned (f : Procedure) : List Register := f.instructions.flatMap (·.operation.mentions)

theorem mem_mentioned {f : Procedure} (hi : i ∈ f.instructions) (hr : r ∈ i.operation.mentions) : r ∈ f.mentioned :=
  mem_flatMap.mpr ⟨i, hi, hr⟩

/-- The registers that the procedure knows: those of its parameters and of its instructions. -/
def known (f : Procedure) : List Register := f.parameters.map (·.register) ++ f.mentioned

theorem register_mem_known {f : Procedure} (hq : q ∈ f.parameters) : q.register ∈ f.known :=
  mem_append_left _ (mem_map_of_mem hq)

theorem mem_known {f : Procedure} (hi : i ∈ f.instructions) (hr : r ∈ i.operation.mentions) : r ∈ f.known :=
  mem_append_right _ (mem_mentioned hi hr)

end Procedure

/-- The operation joins registers of fitting types, in a procedure of the given return type. -/
def Operation.Typed (p : Program) (returnType : Ty) : Operation → Prop
  | .label _ | .unknown _ => True
  | .call (.function symbol) arguments destination =>
    ∀ g, p.find? symbol = some g →
      arguments.map Register.type = g.parameters.map (·.register.type) ∧ g.returnType.Carried destination
  | operation => operation.Consistent p returnType

structure Procedure.Typed (p : Program) (f : Procedure) : Prop where
  types : ∀ r ∈ f.known, ∀ s ∈ f.known, r.id = s.id → r.type = s.type
  widths : ∀ r ∈ f.known, r.type.HasWidth
  operations : ∀ i ∈ f.instructions, i.operation.Typed p f.returnType

structure Program.Typed (p : Program) : Prop where
  procedures : ∀ f ∈ p.procedures, f.Typed p
  globals : ∀ g ∈ p.globals, g.Consistent p

/-! ## Consistent programs are typed -/

theorem Operation.Consistent.typed {op : Operation} (h : op.Consistent p returnType) : op.Typed p returnType := by
  cases op with
  | label | unknown => trivial
  | call target =>
    cases target with
    | routine => trivial
    | function =>
      obtain ⟨g, hg, hfits⟩ := h
      intro _ hg'
      cases hg.symm.trans hg'
      exact hfits
  | _ => exact h

theorem Procedure.Consistent.typed {f : Procedure} (h : f.Consistent p) : f.Typed p := by
  have htable : ∀ r ∈ f.known, r ∈ f.registers := by
    intro r hr
    rcases mem_append.mp hr with hr | hr
    · obtain ⟨q, hq, rfl⟩ := mem_map.mp hr
      exact h.parameters q hq
    · obtain ⟨i, hi, hr⟩ := mem_flatMap.mp hr
      exact h.mentions i hi r hr
  refine ⟨fun r hr s hs hid => ?_, fun r hr => h.widths r (htable r hr), fun i hi => (h.operations i hi).typed⟩
  rw [h.numbered.eq_of_id (htable r hr) (htable s hs) hid]

theorem Program.Consistent.typed {p : Program} (h : p.Consistent) : p.Typed :=
  ⟨fun f hf => (h.procedures f hf).typed, h.globals⟩

end Retarget
