import Retarget.Emit.M68k.Module
import Retarget.Proofs.Emit.Marking

/-!
# Labels in code for the 68000

Instructions are selected without labels but those of the intermediate code, and two for every shift by a register.
Before the code of the instructions a procedure has its entry.
-/
namespace Retarget.M68k

open Emit Checked Line Mark

variable {ctx : Context}

/-! ## Code without labels -/

@[simp] theorem arePlain_m68k : ArePlain (code is) := arePlain_map

@[simp] theorem arePlain_shiftConstant : ArePlain (shiftConstant shift count) := by
  unfold shiftConstant
  split <;> exact arePlain_map

@[simp] theorem arePlain_setTruth : ArePlain (setTruth condition) := arePlain_map

@[simp] theorem arePlain_scaleIndex : ArePlain (scaleIndex size) := by
  unfold scaleIndex
  split
  · split <;> simp
  · simp

theorem arePlain_of_extendSign (h : extendSign bits = .ok lines) : ArePlain lines := by
  unfold extendSign at h
  split at h <;> cases h <;> simp

theorem arePlain_of_normalize (h : normalize type = .ok lines) : ArePlain lines := by
  unfold normalize at h
  split at h
  · cases h
    exact arePlain_nil
  · obtain ⟨_, -, h⟩ := bind_eq_ok.mp h
    split at h
    · cases h
      exact arePlain_nil
    · cases h
      exact arePlain_nil
    · obtain ⟨isSigned, -, h⟩ := bind_eq_ok.mp h
      cases isSigned with
      | false =>
        cases h
        exact arePlain_map
      | true => exact arePlain_of_extendSign h

theorem arePlain_of_conversion (h : conversion source target = .ok lines) : ArePlain lines := by
  unfold conversion at h
  split at h
  · cases h
    simp
  · split at h
    · cases h
      simp
    · obtain ⟨_, hfit, h⟩ := bind_eq_ok.mp h
      cases h
      simp only [arePlain_append, arePlain_of_normalize hfit, and_true]
      split
      · simp
      · split <;> simp

/-! ## Parts of instructions -/

theorem silent_slotOf : (slotOf ctx r).Silent := by
  unfold slotOf
  split
  · exact quiet_pure (by simp [*])
  · exact quiet_throw

theorem plain_libraryCall : (libraryCall routine).Plain :=
  quiet_useExternal.bind fun _ _ => quiet_pure (by simp [*])

theorem plain_multiply : (multiply type bits signed).Plain := by
  unfold multiply
  split
  · exact .ite (quiet_check.bind fun _ _ => plain_libraryCall) (quiet_pure (by simp [*]))
  · exact .ite (quiet_pure (by simp [*])) plain_libraryCall

theorem plain_divide : (divide type signed).Plain := by
  unfold divide
  split
  · exact quiet_check.bind fun _ _ => plain_libraryCall
  · exact plain_libraryCall

theorem plain_compare : (compare ctx comparison lhs rhs destination).Plain :=
  silent_slotOf.bind fun _ _ => silent_slotOf.bind fun _ _ => quiet_check.bind fun _ _ => quiet_check.bind fun _ _ =>
    silent_slotOf.bind fun _ _ => quiet_pure (by simp [*])

theorem plain_testZero : (testZero ctx source negated destination).Plain :=
  silent_slotOf.bind fun _ _ => silent_slotOf.bind fun _ _ => quiet_pure (by simp [*])

theorem plain_convert : (convert ctx source target).Plain :=
  silent_slotOf.bind fun _ _ => quiet_check.bind fun _ hchange => silent_slotOf.bind fun _ _ =>
    quiet_pure (by simp [arePlain_of_conversion hchange])

theorem plain_step : (step ctx direction r).Plain := by
  unfold step
  refine .ite (quiet_check.bind fun _ _ => quiet_throw) ?_
  exact silent_slotOf.bind fun _ _ => quiet_check.bind fun _ hfit => quiet_pure (by simp [arePlain_of_normalize hfit])

theorem silent_callLabel : (callLabel ctx target).Silent := by
  unfold callLabel
  split
  · exact quiet_useExternal
  · split
    · exact quiet_check.mono fun _ _ => trivial
    · exact quiet_check.bind fun _ _ => quiet_throw

theorem plain_call : (call ctx target args dest).Plain := by
  have hpush : ∀ r : Register, Silent (do return Instruction.push (← slotOf ctx r)) := fun r =>
    silent_slotOf.bind fun _ _ => quiet_pure (by simp [*])
  refine (Quiet.mapM fun r _ => hpush r).bind fun _ _ => silent_callLabel.bind fun _ _ => ?_
  cases dest with
  | none => exact quiet_pure (by simp [*])
  | some => exact silent_slotOf.bind fun _ _ => quiet_pure (by simp [*])

theorem plain_arrayIndex : (arrayIndex ctx base index dest).Plain :=
  quiet_check.bind fun _ _ => quiet_check.bind fun _ _ => silent_slotOf.bind fun _ _ => silent_slotOf.bind fun _ _ =>
    silent_slotOf.bind fun _ _ => quiet_pure (by simp [*])

theorem plain_load : (load ctx addr dest).Plain :=
  silent_slotOf.bind fun _ _ => quiet_check.bind fun _ _ => quiet_check.bind fun _ hfit => silent_slotOf.bind fun _ _ =>
    quiet_pure (by simp [arePlain_of_normalize hfit])

theorem plain_store : (store ctx addr value).Plain :=
  silent_slotOf.bind fun _ _ => silent_slotOf.bind fun _ _ => quiet_check.bind fun _ _ => quiet_pure (by simp [*])

/-! ## Instructions -/

theorem marks_shiftRegister : (shiftRegister ctx bits inRange keepsSign).Marks ctx.name [] := by
  intro s _ _ hgives
  simp only [shiftRegister, gives_bind, gives_makeLabel, gives_pure] at hgives
  obtain ⟨_, t, ⟨rfl, rfl⟩, _, u, ⟨rfl, rfl⟩, rfl, rfl⟩ := hgives
  refine ⟨_, (covers_made (by decide : "shift_out" ∈ madeKinds) s.numbers).append
    (covers_made (by decide : "shift_done" ∈ madeKinds) (s.numbers + 1)) (List.disjoint_nil_left _),
    fun equated? => ?_⟩
  cases keepsSign <;> rfl

theorem marks_operation : (operation ctx operator type).Marks ctx.name [] := by
  refine quiet_check.bind_marks fun bits _ => ?_
  cases bits with
  | none => exact quiet_throw.marks
  | some =>
    dsimp only
    split
    · exact Quiet.marks (quiet_pure (by simp [*]))
    · split
      · exact Quiet.marks (quiet_pure (by simp [*]))
      · refine quiet_check.bind_marks fun signed _ => ?_
        split
        · exact plain_multiply.marks
        · exact plain_divide.marks
        · exact plain_libraryCall.marks
        · exact marks_shiftRegister
        · exact marks_shiftRegister
        · exact quiet_throw.marks

theorem marks_arithmetic : (arithmetic ctx operator lhs rhs destination).Marks ctx.name [] := by
  refine silent_slotOf.bind_marks fun _ _ => silent_slotOf.bind_marks fun _ _ => ?_
  refine marks_operation.bind fun _ => ?_
  refine quiet_check.bind fun _ hfit => silent_slotOf.bind fun _ _ => quiet_pure fun _ => ?_
  simp [arePlain_m68k.labels_eq, (arePlain_of_normalize hfit).labels_eq]

theorem plain_ret : (select ctx (.ret reg)).Plain := by
  cases reg with
  | none => exact quiet_pure (by simp [*])
  | some => exact silent_slotOf.bind fun _ _ => quiet_pure (by simp [*])

/-- An instruction has the label that it is, if it is one, and those that are made for it. -/
theorem marks_select (operation : Operation) : (select ctx operation).Marks ctx.name operation.labelName?.toList := by
  cases operation with
  | loadImmediate | gotoIfFalse | addressOf => exact (silent_slotOf.bind fun _ _ => quiet_pure (by simp [*])).marks
  | move =>
    exact (silent_slotOf.bind fun _ _ => silent_slotOf.bind fun _ _ => quiet_pure (by simp [*])).marks
  | binary => exact marks_arithmetic
  | compare => exact plain_compare.marks
  | testZero => exact plain_testZero.marks
  | convert => exact plain_convert.marks
  | step => exact plain_step.marks
  | label => exact marks_label
  | goto => exact Quiet.marks (quiet_pure (by simp [*]))
  | call => exact plain_call.marks
  | ret => exact plain_ret.marks
  | arrayIndex => exact plain_arrayIndex.marks
  | load => exact plain_load.marks
  | store => exact plain_store.marks
  | unknown => exact quiet_throw.marks

/-! ## Procedures -/

theorem areLabels_procedureCode {p} (hp : p.HasDistinctNames)
    (hsym : p.symbol.text = .ok symbol) (h : Gives (procedureCode program p) s lines s') :
    AreLabels symbol (labels (fun _ => none) lines) := by
  simp only [procedureCode, hsym, gives_bind, gives_check, gives_pure, Except.ok.injEq] at h
  obtain ⟨_, t, ⟨rfl, rfl⟩, _, u, hbody, rfl, rfl⟩ := h
  obtain ⟨_, hmarks, hlabels⟩ := marks_selectEach marks_select hp.labels hbody
  have hall := hmarks.areLabels hp.names symbol [.entry] [] (by decide) (by simp [IsProper, isInner])
  rw [List.append_nil, List.map_append] at hall
  rw [labels_append, hlabels]
  exact hall

end Retarget.M68k
