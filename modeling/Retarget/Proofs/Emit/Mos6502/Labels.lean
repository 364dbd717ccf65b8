import Retarget.Emit.Mos6502.Module
import Retarget.Proofs.Emit.Marking

/-!
# Labels in code for the 6502

Instructions are selected without labels but those of the intermediate code, two behind every comparison and one
behind every conditional jump. Around the code of the instructions a procedure has its entry and its exit.
-/
namespace Retarget.Mos6502

open Emit Line Mark

variable {ctx : Context}

/-! ## Code without labels -/

@[simp] theorem arePlain_mos6502 : ArePlain (code is) := arePlain_map

@[simp] theorem arePlain_copyBytes : ArePlain (copyBytes source target count) :=
  arePlain_flatMap fun _ _ => arePlain_map

@[simp] theorem arePlain_storeImmediates : ArePlain (storeImmediates target bytes) :=
  arePlain_flatMap fun _ _ => arePlain_map

@[simp] theorem arePlain_signFill : ArePlain (signFill byte) := arePlain_map

@[simp] theorem arePlain_reserve : ArePlain (reserve bytes) := by
  unfold reserve
  split <;> exact arePlain_map

@[simp] theorem arePlain_release : ArePlain (release bytes) := by
  unfold release
  split <;> exact arePlain_map

@[simp] theorem arePlain_stepBytes : ArePlain (stepBytes op bytes amounts i) := by
  induction amounts generalizing i with
  | nil => exact arePlain_nil
  | cons _ _ ih => simp [stepBytes, ih]

@[simp] theorem arePlain_pushBytes : ArePlain (pushBytes bytes size) :=
  arePlain_flatMap fun _ _ => arePlain_map

theorem arePlain_of_fixTopByte (h : fixTopByte type bytes = .ok lines) : ArePlain lines := by
  unfold fixTopByte at h
  split at h
  · cases h
    exact arePlain_nil
  · obtain ⟨_, -, h⟩ := Checked.bind_eq_ok.mp h
    split at h
    · cases h
      exact arePlain_nil
    · obtain ⟨isSigned, -, h⟩ := Checked.bind_eq_ok.mp h
      cases h
      cases isSigned <;> simp

/-! ## Parts of instructions -/

theorem silent_slotOf : (slotOf ctx r).Silent := by
  unfold slotOf
  split
  · exact quiet_pure (by simp [*])
  · exact quiet_throw

theorem silent_scratch : (scratch name).Silent :=
  quiet_useExternal.bind fun _ _ => quiet_pure (by simp [*])

theorem silent_sizeOfRegister : (sizeOfRegister r).Silent :=
  quiet_check.mono fun _ _ => trivial

theorem plain_copyOut {area} (harea : area.Silent) : (copyOut ctx r area).Plain :=
  silent_sizeOfRegister.bind fun _ _ => silent_slotOf.bind fun _ _ => harea.bind fun _ _ => quiet_pure (by simp [*])

theorem plain_copyIn {area} (harea : area.Silent) : (copyIn ctx area r).Plain :=
  silent_sizeOfRegister.bind fun _ _ => harea.bind fun _ _ => silent_slotOf.bind fun _ _ => quiet_pure (by simp [*])

theorem plain_callExternal : (callExternal name).Plain :=
  quiet_useExternal.bind fun _ _ => quiet_pure (by simp [*])

theorem plain_viaRoutine : (viaRoutine ctx routine lhs rhs dest).Plain := by
  refine (plain_copyOut silent_scratch).bind fun first hfirst => ?_
  have hrest : ∀ second, ArePlain second → Plain (do
      let call ← callExternal routine
      return first ++ second ++ call ++ (← copyIn ctx resultArea dest)) := fun second hsecond =>
    plain_callExternal.bind fun _ hcall => (plain_copyIn silent_scratch).bind fun _ hresult => quiet_pure (by simp [*])
  cases rhs with
  | none => exact hrest [] arePlain_nil
  | some => exact (plain_copyOut silent_scratch).bind hrest

theorem plain_arithmetic : (arithmetic ctx operator lhs rhs dest).Plain := by
  unfold arithmetic
  dsimp only
  split
  · exact quiet_check.bind fun _ _ => plain_viaRoutine
  · refine silent_sizeOfRegister.bind fun _ _ => silent_slotOf.bind fun _ _ => silent_slotOf.bind fun _ _ =>
      silent_slotOf.bind fun _ _ => quiet_check.bind fun _ hfix => quiet_pure ?_
    simp [arePlain_of_fixTopByte hfix, arePlain_flatMap]

theorem plain_step : (step ctx dir r).Plain := by
  unfold step
  refine .ite (quiet_check.bind fun _ _ => quiet_throw) ?_
  refine silent_sizeOfRegister.bind fun _ _ => .ite (quiet_pure (by simp)) ?_
  refine silent_slotOf.bind fun _ _ => ?_
  cases dir <;>
    exact quiet_check.bind fun _ hfix => quiet_pure (by simp [arePlain_of_fixTopByte hfix])

theorem plain_move : (move ctx source target).Plain :=
  silent_sizeOfRegister.bind fun _ _ => silent_slotOf.bind fun _ _ => silent_slotOf.bind fun _ _ =>
    quiet_pure (by simp [*])

theorem plain_convert : (convert ctx source target).Plain :=
  .ite plain_move (quiet_check.bind fun _ _ => plain_viaRoutine)

theorem plain_pushArguments : (pushArguments ctx args).Quiet fun result => ArePlain result.1 := by
  induction args with
  | nil => exact quiet_pure (by simp [*])
  | cons arg _ ih =>
    exact silent_sizeOfRegister.bind fun _ _ => silent_slotOf.bind fun _ _ => ih.bind fun _ h =>
      quiet_pure (by simp [*])

theorem plain_callFunction (hresult : ArePlain result) : (callFunction ctx symbol args result).Plain := by
  unfold callFunction
  split
  · exact quiet_check.bind fun _ _ => quiet_throw
  · exact plain_pushArguments.bind fun _ hpushes => quiet_check.bind fun _ _ => quiet_pure (by simp [*])

theorem plain_call : (call ctx target args dest).Plain := by
  cases target with
  | routine routine =>
    have hroutine : Plain (do
        let loads ← args.mapM fun r => copyOut ctx r argumentArea
        return loads.flatten ++ (← callExternal routine.name)) :=
      (Quiet.mapM fun r _ => plain_copyOut silent_scratch).bind fun _ hloads => plain_callExternal.bind fun _ hcall =>
        quiet_pure (by simp [arePlain_flatten hloads, hcall])
    cases dest with
    | none => exact hroutine
    | some => exact (plain_copyIn silent_scratch).bind fun _ _ => hroutine
  | function =>
    cases dest with
    | none => exact plain_callFunction arePlain_nil
    | some => exact (plain_copyIn silent_scratch).bind fun _ h => plain_callFunction h

theorem plain_widenIndex : (widenIndex ctx index).Plain := by
  refine silent_sizeOfRegister.bind fun _ _ => .ite ?_ ?_
  · refine quiet_check.bind fun isSigned _ => silent_slotOf.bind fun _ _ => silent_scratch.bind fun _ _ => quiet_pure ?_
    cases isSigned <;> simp
  · exact silent_slotOf.bind fun _ _ => silent_scratch.bind fun _ _ => quiet_pure (by simp [*])

theorem plain_scaleIndex : (scaleIndex size).Plain := by
  refine .ite (quiet_pure (by simp)) ?_
  exact silent_scratch.bind fun _ _ => silent_scratch.bind fun _ _ => silent_scratch.bind fun _ _ =>
    plain_callExternal.bind fun _ hcall => quiet_pure (by simp [*])

theorem plain_arrayIndex : (arrayIndex ctx base index dest).Plain :=
  quiet_check.bind fun _ _ => quiet_check.bind fun _ _ => plain_widenIndex.bind fun _ hwiden =>
    plain_scaleIndex.bind fun _ hscale => silent_scratch.bind fun _ _ => silent_slotOf.bind fun _ _ =>
    silent_slotOf.bind fun _ _ => quiet_pure (by simp [*])

theorem plain_setPointer : (setPointer ctx addr).Quiet fun result => ArePlain result.1 :=
  silent_slotOf.bind fun _ _ => quiet_useExternal.bind fun _ _ => quiet_pure (by simp [*])

theorem plain_load : (load ctx addr dest).Plain :=
  plain_setPointer.bind fun _ hptr => silent_sizeOfRegister.bind fun _ _ => silent_slotOf.bind fun _ _ =>
    quiet_pure (by simp [hptr, arePlain_flatMap])

theorem plain_store : (store ctx addr value).Plain :=
  plain_setPointer.bind fun _ hptr => silent_sizeOfRegister.bind fun _ _ => silent_slotOf.bind fun _ _ =>
    quiet_pure (by simp [hptr, arePlain_flatMap])

/-! ## Instructions -/

theorem marks_materialize : (materialize ctx branch dest).Marks ctx.name [] := by
  intro s _ _ hgives
  simp only [materialize, gives_bind, gives_makeLabel, gives_pure] at hgives
  obtain ⟨_, t, ⟨rfl, rfl⟩, done, u, ⟨rfl, rfl⟩, _, v, htarget, rfl, rfl⟩ := hgives
  obtain ⟨hnumbers, -⟩ := silent_slotOf htarget
  rw [hnumbers]
  refine ⟨_, (covers_made (by decide : "true" ∈ madeKinds) s.numbers).append
    (covers_made (by decide : "done" ∈ madeKinds) (s.numbers + 1)) (List.disjoint_nil_left _),
    fun equated? => rfl⟩

/-- Code before a comparison's result is brought about makes no difference. -/
theorem marks_flags (hflags : ArePlain flags) :
    Marks ctx.name [] (do return flags ++ (← materialize ctx branch dest)) :=
  marks_materialize.bind fun _ => quiet_pure fun _ => by simp [hflags.labels_eq]

theorem marks_compare : (compare ctx comparison lhs rhs dest).Marks ctx.name [] := by
  refine quiet_check.bind_marks fun (branch, swap) _ => ?_
  have hcompare : ∀ lhs rhs, Marks ctx.name [] (do
      if ← check (isPlainByte lhs) then
        let first ← slotOf ctx lhs
        let second ← slotOf ctx rhs
        return code [.load (first 0), .alu .cmp (second 0)] ++ (← materialize ctx branch dest)
      else
        let routine ← useExternal (← check (routineFor "compare" lhs.type))
        let first ← copyOut ctx lhs firstArea
        let second ← copyOut ctx rhs secondArea
        return first ++ second ++ code [.call routine] ++ (← materialize ctx branch dest)) := by
    intro _ _
    refine quiet_check.bind_marks fun isPlain _ => ?_
    split
    · exact silent_slotOf.bind_marks fun _ _ => silent_slotOf.bind_marks fun _ _ => marks_flags (by simp)
    · exact quiet_check.bind_marks fun _ _ => quiet_useExternal.bind_marks fun _ _ =>
        (plain_copyOut silent_scratch).bind_marks fun _ hfirst =>
        (plain_copyOut silent_scratch).bind_marks fun _ hsecond => marks_flags (by simp [hfirst, hsecond])
  cases swap
  · exact hcompare lhs rhs
  · exact hcompare rhs lhs

theorem marks_testZero : (testZero ctx source negated dest).Marks ctx.name [] :=
  silent_slotOf.bind_marks fun _ _ => silent_sizeOfRegister.bind_marks fun _ _ => marks_flags (by simp)

theorem marks_gotoIfFalse : (select ctx (.gotoIfFalse condition name)).Marks ctx.name [] := by
  intro s _ _ hgives
  simp only [select, gives_bind, gives_makeLabel, gives_pure] at hgives
  obtain ⟨skip, t, ⟨rfl, rfl⟩, _, u, hbytes, rfl, rfl⟩ := hgives
  obtain ⟨hnumbers, -⟩ := silent_slotOf hbytes
  rw [hnumbers]
  exact ⟨_, covers_made (by decide : "skip" ∈ madeKinds) s.numbers, fun equated? => rfl⟩

theorem plain_ret : (select ctx (.ret reg)).Plain := by
  cases reg with
  | none => exact quiet_pure (by simp [*])
  | some => exact (plain_copyOut silent_scratch).bind fun _ h => quiet_pure (by simp [*])

/-- An instruction has the label that it is, if it is one, and those that are made for it. -/
theorem marks_select (operation : Operation) : (select ctx operation).Marks ctx.name operation.labelName?.toList := by
  cases operation with
  | loadImmediate =>
    exact (silent_sizeOfRegister.bind fun _ _ => silent_slotOf.bind fun _ _ => quiet_pure (by simp [*])).marks
  | move => exact plain_move.marks
  | binary => exact plain_arithmetic.marks
  | compare => exact marks_compare
  | testZero => exact marks_testZero
  | convert => exact plain_convert.marks
  | step => exact plain_step.marks
  | label => exact marks_label
  | goto => exact Quiet.marks (quiet_pure (by simp [*]))
  | gotoIfFalse => exact marks_gotoIfFalse
  | call => exact plain_call.marks
  | ret => exact plain_ret.marks
  | addressOf => exact (silent_slotOf.bind fun _ _ => quiet_pure (by simp [*])).marks
  | arrayIndex => exact plain_arrayIndex.marks
  | load => exact plain_load.marks
  | store => exact plain_store.marks
  | unknown => exact quiet_throw.marks

/-! ## Procedures -/

theorem areLabels_procedureCode {p} (hp : p.HasDistinctNames)
    (hsym : p.symbol.text = .ok symbol) (h : Gives (procedureCode program p) s lines s')
    (equated? : String → Option String) : AreLabels symbol (labels equated? lines) := by
  simp only [procedureCode, hsym, gives_bind, gives_check, gives_pure, Except.ok.injEq] at h
  obtain ⟨_, t, ⟨rfl, rfl⟩, _, t, hframe, _, u, hbody, rfl, rfl⟩ := h
  obtain ⟨_, hmarks, hlabels⟩ := marks_selectEach marks_select hp.labels hbody
  have hall := hmarks.areLabels hp.names symbol [.entry] [.exit] (by decide) (by simp [IsProper, isInner])
  simpa [hlabels, arePlain_reserve.labels_eq, arePlain_release.labels_eq, arePlain_mos6502.labels_eq]
    using hall

end Retarget.Mos6502
