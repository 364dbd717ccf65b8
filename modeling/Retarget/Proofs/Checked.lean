import Mathlib.Data.List.Forall2
import Retarget.Diagnostic

/-!
# Results that something may take the place of

What is known of the parts of a computation that gave a result.
-/
namespace Retarget

open List Outcome

variable {ε α β : Type}

theorem Checked.bind_eq_ok {f : α → Except ε β} : x >>= f = .ok y ↔ ∃ a, x = .ok a ∧ f a = .ok y := by
  cases x <;> simp [bind, Except.bind]

theorem Checked.map_eq_ok {f : α → β} {x : Except ε α} {y} : f <$> x = .ok y ↔ ∃ a, x = .ok a ∧ f a = y := by
  cases x <;> simp [Functor.map, Except.map]

theorem Checked.forall₂_of_mapM {f : α → Except ε β} {as} (h : as.mapM f = .ok bs) :
    Forall₂ (fun a b => f a = .ok b) as bs := by
  induction as generalizing bs with
  | nil =>
    cases h
    exact .nil
  | cons a as ih =>
    rw [mapM_cons] at h
    obtain ⟨b, hb, h⟩ := bind_eq_ok.mp h
    obtain ⟨_, hrest, h⟩ := bind_eq_ok.mp h
    cases h
    exact .cons hb (ih hrest)

theorem Checked.map_ok_of_forall₂ {f : α → Except ε β} (h : Forall₂ (fun a b => f a = .ok b) as bs) :
    as.map f = bs.map .ok := by
  induction h with
  | nil => rfl
  | cons hab _ ih => rw [map_cons, map_cons, hab, ih]

theorem Checked.eq_of_forall₂ {γ : Type} {f : α → Except ε γ} {g : β → Except ε γ} {as bs cs cs'}
    (hsame : as.map f = bs.map g) (h : Forall₂ (fun a c => f a = .ok c) as cs)
    (h' : Forall₂ (fun b c => g b = .ok c) bs cs') : cs = cs' := by
  refine (map_injective_iff.mpr fun _ _ => Except.ok.inj) (?_ : cs.map (Except.ok : γ → Except ε γ) = cs'.map .ok)
  rw [← map_ok_of_forall₂ h, ← map_ok_of_forall₂ h', hsame]

theorem Checked.exists_of_map {δ : Type} {x : Except ε (Except δ α)} {f : α → β}
    (h : (x.toOption.bind (·.toOption)).map f = some b) : ∃ a, x = .ok (.ok a) ∧ f a = b := by
  rcases x with _ | _ | a
  · cases h
  · cases h
  · exact ⟨a, rfl, Option.some.inj h⟩

theorem exists_partner {R : α → β → Prop} (h : Forall₂ R l l') (ha : a ∈ l) : ∃ b ∈ l', R a b := by
  induction h with
  | nil => cases ha
  | @cons x y l l' hxy _ ih =>
    rcases mem_cons.mp ha with rfl | ha
    · exact ⟨y, mem_cons_self, hxy⟩
    · obtain ⟨b, hb, hab⟩ := ih ha
      exact ⟨b, mem_cons_of_mem _ hb, hab⟩

theorem exists_origin {R : α → β → Prop} (h : Forall₂ R l l') (hb : b ∈ l') : ∃ a ∈ l, R a b :=
  exists_partner h.flip hb

theorem Checked.mapM_eq_ok {f : α → Except ε β} {as : List α} {b} (h : ∀ a ∈ as, f a = .ok b) :
    as.mapM f = .ok (as.map fun _ => b) := by
  induction as with
  | nil => rfl
  | cons a as ih =>
    rw [mapM_cons, h a (.head _), ih fun a ha => h a (.tail _ ha)]
    rfl

theorem Checked.exists_mapM {f : α → Except ε β} {as : List α} (h : ∀ a ∈ as, ∃ b, f a = .ok b) :
    ∃ bs, as.mapM f = .ok bs := by
  induction as with
  | nil => exact ⟨[], rfl⟩
  | cons a as ih =>
    obtain ⟨b, hb⟩ := h a (.head _)
    obtain ⟨bs, hbs⟩ := ih fun a ha => h a (.tail _ ha)
    refine ⟨b :: bs, ?_⟩
    rw [mapM_cons, hb, hbs]
    rfl

theorem Checked.forM_eq_ok {f : α → Except ε PUnit} {as : List α} (h : ∀ a ∈ as, f a = .ok ⟨⟩) :
    as.forM f = .ok ⟨⟩ := by
  induction as with
  | nil => rfl
  | cons a as ih =>
    rw [List.forM, h a (.head _)]
    exact ih fun a ha => h a (.tail _ ha)

theorem Checked.forall_of_forM {f : α → Except ε Unit} {as : List α} (h : as.forM f = .ok u) :
    ∀ a ∈ as, f a = .ok ⟨⟩ := by
  induction as with
  | nil => exact forall_mem_nil _
  | cons a as ih =>
    obtain ⟨_, ha, has⟩ := Checked.bind_eq_ok.mp h
    exact forall_mem_cons.mpr ⟨ha, ih has⟩

theorem Checked.mem_flatten_of_mapM {f : α → Except ε (List β)} {as : List α} (h : as.mapM f = .ok bss) :
    b ∈ bss.flatten ↔ ∃ a ∈ as, ∃ bs, f a = .ok bs ∧ b ∈ bs := by
  have hforall := forall₂_of_mapM h
  clear h
  induction hforall with
  | nil => simp
  | @cons a bs as bss hbs _ ih =>
    simp only [flatten_cons, mem_append, ih, exists_mem_cons_iff, hbs, Except.ok.injEq,
      exists_eq_left']

theorem Outcome.eq_of_collect (h : collect results = .ok values) : results = values.map .ok := by
  induction results generalizing values with
  | nil =>
    cases h
    rfl
  | cons result results ih =>
    cases result with
    | ok =>
      unfold collect at h
      cases hrest : collect results with
      | error =>
        rw [hrest] at h
        cases h
      | ok =>
        rw [hrest] at h
        cases h
        rw [ih hrest]
        rfl
    | error =>
      unfold collect at h
      split at h <;> cases h

end Retarget
