import Retarget.Proofs.Code.Assigned
import Retarget.Proofs.Run.Soundness

/-!
# Orderly activations

What rewriting a procedure may rely on in every run of it: registers for numbers hold numbers in the range of
their type, and a register holds a value only if a caller or some instruction gives it that one. A support routine
gives none, whatever register it names for its result.
-/
namespace Retarget

open List

/-- Some instruction may give the register a value, or the caller does. -/
def Procedure.Assigns (f : Procedure) (id : Numeral) : Prop :=
  id ∈ f.parameterIds ∨ ∃ i ∈ f.instructions, ∃ r ∈ i.operation.results, r.id = id

theorem Operation.Does.mem_results {get : Register → Except Stop Value}
    (h : Operation.Does get memory op e) (hw : e.write = some (r, v)) : r ∈ op.results := by
  cases h <;> cases hw <;> exact mem_singleton.mpr rfl

/-! ## Only what is assigned holds a value -/

/-- Only registers that the procedure assigns hold values. -/
def Activation.Assigned (a : Activation) : Prop :=
  ∀ id v, a.registers.get? id = some v → a.procedure.Assigns id

/-- The operation may give its result the value. Constants and addresses are the same whenever they are taken. -/
def Operation.MayGive : Operation → Value → Prop
  | .loadImmediate value _, v => v = .number value
  | .addressOf symbol _, v => v = .pointer symbol.text 0
  | _, _ => True

/-- Some instruction may give the register the value, or the caller does. -/
def Procedure.Supplies (f : Procedure) (id : Numeral) (v : Value) : Prop :=
  id ∈ f.parameterIds ∨ ∃ i ∈ f.instructions, ∃ r ∈ i.operation.results, r.id = id ∧ i.operation.MayGive v

/-- Registers hold only values that the procedure may give them. -/
def Activation.Supplied (a : Activation) : Prop :=
  ∀ id v, a.registers.get? id = some v → a.procedure.Supplies id v

theorem Operation.Does.mayGive {get : Register → Except Stop Value}
    (h : Operation.Does get memory op e) (hw : e.write = some (r, some v)) : op.MayGive v := by
  cases h with
  | loadImmediate | addressOf =>
    cases hw
    rfl
  | _ => trivial

namespace Activation.Supplied

variable {a b : Activation}

theorem assigned (h : a.Supplied) : a.Assigned := by
  intro id v hv
  rcases h id v hv with hparam | ⟨i, hi, r, hr, hid, -⟩
  · exact Or.inl hparam
  · exact Or.inr ⟨i, hi, r, hr, hid⟩

theorem set (h : a.Supplied) {r} (hr : ∀ w, v = some w → a.procedure.Supplies r.id w) :
    (a.written (some (r, v))).Supplied := by
  intro id w hw
  rw [written_procedure]
  rw [get?_written] at hw
  split at hw
  · rename_i hid
    exact hid ▸ hr w hw
  · exact h id w hw

theorem goesOn (h : a.Supplied) (hr : a.react memory = .goesOn b memory' units) : b.Supplied := by
  obtain ⟨i, e, _, hi, hd, -, -, -, rfl⟩ := goesOn_of_react hr
  show (a.written e.write).Supplied
  match hw : e.write with
  | none => exact h
  | some (r, v) =>
    refine h.set fun w hv => Or.inr ⟨i, mem_of_getElem? hi, r, hd.mem_results hw, rfl, ?_⟩
    exact hd.mayGive (hv ▸ hw)

theorem start (f : Procedure) (values : List Value) : (f.activation values).Supplied :=
  fun _ _ hv => Or.inl (of_mem_zip (Assoc.mem_of_get?_ofPairs hv)).1

end Activation.Supplied

namespace Machine

variable {p : Program} {m n : Machine}

/-- In no activation do registers hold values that nothing gives them, nor will they after a return. -/
structure Supplied (m : Machine) : Prop where
  active : m.active.Supplied
  callers : ∀ s ∈ m.callers, s.activation.Supplied ∧
    ∀ r, s.destination = some r → ∀ v, s.activation.procedure.Supplies r.id v

theorem Supplied.step (h : m.Supplied) (ha : m.advance p = .running n) : n.Supplied := by
  cases moves_of_running ha with
  | goesOn reaction => exact ⟨h.active.goesOn reaction, h.callers⟩
  | @calls _ values _ dest f reaction =>
    obtain ⟨i, _, hi, hop, -, rfl⟩ := Activation.calls_of_react reaction
    refine ⟨.start f values, fun s hs => ?_⟩
    rcases mem_cons.mp hs with rfl | hs
    · refine ⟨h.active, fun r hr v => Or.inr ⟨i, mem_of_getElem? hi, r, ?_, rfl, ?_⟩⟩ <;> rw [hop]
      · obtain rfl : dest = some r := hr
        exact mem_singleton.mpr rfl
      · trivial
    · exact h.callers s hs
  | @returns _ s _ a _ callers resumed =>
    have hcallers := h.callers
    rw [callers] at hcallers
    obtain ⟨hs, hdest⟩ := hcallers s (.head _)
    refine ⟨?_, fun s' hs => hcallers s' (.tail _ hs)⟩
    rcases Suspended.resume_cases resumed with ⟨-, rfl⟩ | ⟨r, v, hr, -, rfl⟩
    · exact hs
    · exact hs.set (v := some v) fun w _ => hdest r hr w

end Machine

/-! ## Activations in runs -/

/-- The activation is as one of a run with types that mean something. -/
structure Activation.Orderly (a : Activation) : Prop where
  numbers : ∀ r ∈ a.procedure.mentioned, r.type.IsNumber → ∀ v, a.registers.get? r.id = some v →
    ∃ n, v = .number (.dyadic n 0) ∧ r.type.Holds n
  assigned : a.Assigned

namespace Machine

variable {p : Program} {n : Machine}

theorem supplied_of_steps (hs : Steps p k (p.startOf f args) n) : n.active.Supplied :=
  (hs.invariant (fun h ha => Supplied.step h ha) ⟨.start f args, nofun⟩).active

/-- In a run of a type-consistent program all activations are orderly. -/
theorem orderly_of_steps (hp : p.Consistent) (hn : p.blockNames.Nodup) (hf : f ∈ p.procedures)
    (h : p.Accepts f args) (hs : Steps p k (p.startOf f args) n) : n.active.Orderly where
  numbers r hr hnumber v hv :=
    ((sound_of_steps hp.typed hn hf h hs).active.registers r (mem_append_right _ hr) v hv).holds hnumber
  assigned := (supplied_of_steps hs).assigned

end Machine

end Retarget
