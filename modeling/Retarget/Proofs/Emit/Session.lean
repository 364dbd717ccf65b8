import Retarget.Emit.Session
import Retarget.Proofs.Checked

/-!
# Runs of an emission

What an emission gives, from one session to the next, follows its binds.
-/
namespace Retarget.Emit

open Checked

variable {α β : Type} {s s' : Session}

/-- The emission gives a result and goes on from one session to another. -/
def Gives (x : Emit α) (s : Session) (a : α) (s' : Session) : Prop := x.run s = .ok (a, s')

@[simp] theorem gives_pure : Gives (pure a) s b s' ↔ b = a ∧ s' = s := by
  show (Except.ok (a, s) : Except Halt _) = .ok (b, s') ↔ _
  simp [eq_comm]

@[simp] theorem gives_bind {f : α → Emit β} : Gives (x >>= f) s b s' ↔ ∃ a t, Gives x s a t ∧ Gives (f a) t b s' := by
  show (x.run s >>= fun result => (f result.1).run result.2) = _ ↔ _
  rw [bind_eq_ok]
  exact ⟨fun ⟨⟨a, t⟩, hx, hf⟩ => ⟨a, t, hx, hf⟩, fun ⟨a, t, hx, hf⟩ => ⟨(a, t), hx, hf⟩⟩

@[simp] theorem gives_map {f : α → β} : Gives (f <$> x) s b s' ↔ ∃ a, Gives x s a s' ∧ b = f a := by
  rw [map_eq_pure_bind, gives_bind]
  simp

@[simp] theorem gives_throw : ¬ Gives (throw halt) s a s' := by
  intro h
  cases h

@[simp] theorem gives_refuse : ¬ Gives (refuse message) s a s' := gives_throw

@[simp] theorem gives_check : Gives (check x) s a s' ↔ x = .ok a ∧ s' = s := by
  cases x with
  | error => simp [check]
  | ok => simp [check, eq_comm]

@[simp] theorem gives_useExternal :
    Gives (useExternal name) s text s' ↔ text = name ∧ s' = { s with externals := s.externals ++ [name] } := by
  show (Except.ok (name, { s with externals := s.externals ++ [name] }) : Except Halt _) = .ok (text, s') ↔ _
  simp [eq_comm]

@[simp] theorem gives_makeLabel :
    Gives (makeLabel kind) s label s' ↔
      label = s!"{kind}_{s.numbers + 1}" ∧ s' = { s with numbers := s.numbers + 1 } := by
  show (Except.ok (s!"{kind}_{s.numbers + 1}", { s with numbers := s.numbers + 1 }) : Except Halt _) =
    .ok (label, s') ↔ _
  simp [eq_comm]

/-! ## Fresh sessions -/

/-- What an emission writes from a fresh session, and nothing if it fails. -/
def written {α : Type} (x : Emit (List α)) : List α :=
  match x.run ⟨0, []⟩ with
  | .ok (lines, _) => lines
  | .error _ => []

theorem Gives.written_eq (h : Gives x ⟨0, []⟩ lines s) : x.written = lines := by
  unfold written
  rw [h]

theorem gives_of_runFresh {x} (h : x.runFresh = .ok (a, externals)) : ∃ s, Gives x ⟨0, []⟩ a s := by
  unfold runFresh at h
  split at h
  · rename_i result session hrun
    cases h
    exact ⟨session, hrun⟩
  · cases h

theorem runFresh_of_report (h : report target p x = .ok (.ok result)) : x.runFresh = .ok result := by
  unfold report at h
  split at h
  · cases h
    assumption
  · cases h
  · obtain ⟨_, -, h⟩ := bind_eq_ok.mp h
    cases h

/-- What is emitted for all procedures is, place by place, what each becomes by itself. -/
theorem forall₂_of_each {emission : Procedure → Emit α}
    (h : each target procedures emission = .ok (.ok (results, externals))) :
    List.Forall₂ (fun p result => ∃ s, Gives (emission p) ⟨0, []⟩ result s) procedures results := by
  obtain ⟨reports, hreports, h⟩ := bind_eq_ok.mp h
  have hreported := forall₂_of_mapM hreports
  cases hemitted : Outcome.collect reports with
  | error =>
    rw [hemitted] at h
    cases h
  | ok =>
    rw [hemitted] at h
    cases h
    rw [Outcome.eq_of_collect hemitted, List.forall₂_map_right_iff] at hreported
    rw [List.forall₂_map_right_iff]
    exact hreported.imp fun p result hresult => gives_of_runFresh (runFresh_of_report hresult)

end Retarget.Emit
