import Retarget.Lower.Module

/-!
# Lowering that succeeds

A run of lowering that succeeds gives a result and a state. What the run of a composed action says about the
runs of its parts is said here once for every action that lowering is built from; the lemmas are equivalences,
so simplification takes a whole action apart.
-/
namespace Retarget

namespace Lower

/-- What the action gives in a state, and the state that it leads to. -/
def result {α : Type} (x : Lower α) (s : State) : Except Abort α × State := x.run.run s

/-- The action succeeds in a state; it gives a result and leads to a state. -/
def Yields {α : Type} (x : Lower α) (s : State) (a : α) (s' : State) : Prop := x.result s = (.ok a, s')

/-! ## States -/

namespace State

def emitted (s : State) (i : Instruction) : State :=
  { s with draft := { s.draft with instructions := s.draft.instructions ++ [i] } }

def fresh (s : State) (type : Ty) : Register := s.draft.registers.fresh type

def allocated (s : State) (type : Ty) : State :=
  { s with draft := { s.draft with registers := s.draft.registers ++ [s.fresh type] } }

def label (s : State) (kind : String) : String := s!"{kind}_{s.draft.labels + 1}"

def labelled (s : State) : State := { s with draft := { s.draft with labels := s.draft.labels + 1 } }

def bound (s : State) (name : String) (register : Register) : State :=
  { s with draft := { s.draft with scope := s.draft.scope.set name register } }

def rescoped (s outer : State) : State := { s with draft := { s.draft with scope := outer.draft.scope } }

def noted (s : State) (name : String) (type : Ty) (register : Register) : State :=
  { s with draft := { s.draft with locals := s.draft.locals ++ [⟨name, type, register⟩] } }

/-- The state with a string in its pool, which grows if the string is new. -/
def interned (s : State) (value : String) : State :=
  if value ∈ s.shared.pool then s else { s with shared := { s.shared with pool := s.shared.pool ++ [value] } }

def cached (s : State) (cache : InstanceCache) : State := { s with shared := { s.shared with cache } }

end State

/-! ## Actions -/

section
variable {α β : Type} {s s' : State}

theorem result_bind (x : Lower α) (f : α → Lower β) (s : State) :
    (x >>= f).result s = match x.result s with
      | (.ok a, t) => (f a).result t
      | (.error e, t) => (.error e, t) := by
  show StateT.bind x.run (ExceptT.bindCont f) s = _
  unfold StateT.bind result
  show (match x.run.run s with | (r, t) => (ExceptT.bindCont f r).run t) = _
  rcases x.run.run s with ⟨_ | a, t⟩ <;> rfl

@[simp] theorem yields_pure : Yields (pure a) s b s' ↔ b = a ∧ s' = s := by
  show (Except.ok a, s) = (Except.ok b, s') ↔ _
  simp [eq_comm]

@[simp] theorem yields_bind {f : α → Lower β} :
    Yields (x >>= f) s b s' ↔ ∃ a t, Yields x s a t ∧ Yields (f a) t b s' := by
  unfold Yields
  rw [result_bind]
  rcases x.result s with ⟨_ | a, t⟩ <;> simp [and_assoc]

@[simp] theorem yields_map {f : α → β} : Yields (f <$> x) s b s' ↔ ∃ a, Yields x s a s' ∧ b = f a := by
  rw [map_eq_pure_bind, yields_bind]
  simp only [yields_pure]
  exact ⟨fun ⟨a, t, hx, hb, ht⟩ => ⟨a, ht ▸ hx, hb⟩, fun ⟨a, hx, hb⟩ => ⟨a, s', hx, hb, rfl⟩⟩

@[simp] theorem yields_throw : ¬ Yields (throw e) s a s' := by
  intro h
  cases h

@[simp] theorem yields_ite {c : Prop} [Decidable c] :
    Yields (if c then x else y) s a s' ↔ c ∧ Yields x s a s' ∨ ¬ c ∧ Yields y s a s' := by
  by_cases h : c <;> simp [h]

@[simp] theorem yields_check : Yields (check x) s a s' ↔ x = .ok a ∧ s' = s := by
  cases x <;> simp [check, eq_comm]

@[simp] theorem yields_unsupported : ¬ Yields (unsupported ctx construct site) s a s' :=
  yields_throw

@[simp] theorem yields_get : Yields get s t s' ↔ t = s ∧ s' = s := by
  show (Except.ok s, s) = (Except.ok t, s') ↔ _
  simp [eq_comm]

@[simp] theorem yields_modify {f : State → State} : Yields (modify f) s u s' ↔ s' = f s := by
  show (Except.ok (), f s) = (Except.ok (), s') ↔ _
  simp [eq_comm]

@[simp] theorem yields_modifyDraft {f : Draft → Draft} :
    Yields (modifyDraft f) s u s' ↔ s' = { s with draft := f s.draft } :=
  yields_modify

@[simp] theorem yields_getDraft : Yields getDraft s d s' ↔ d = s.draft ∧ s' = s := by
  simp [getDraft, and_comm]

@[simp] theorem yields_emit : Yields (emit op why) s u s' ↔ s' = s.emitted ⟨op, why⟩ :=
  yields_modify

@[simp] theorem yields_allocate : Yields (allocate type) s r s' ↔ r = s.fresh type ∧ s' = s.allocated type := by
  simp only [allocate, RegisterTable.allocate, yields_bind, yields_getDraft, yields_modifyDraft, yields_pure, and_assoc,
    exists_and_left, exists_eq_left, exists_const]
  rfl

@[simp] theorem yields_makeLabel : Yields (makeLabel kind) s name s' ↔ name = s.label kind ∧ s' = s.labelled := by
  simp only [makeLabel, yields_bind, yields_getDraft, yields_modifyDraft, yields_pure, and_assoc,
    exists_and_left, exists_eq_left, exists_const]
  rfl

@[simp] theorem yields_bindName : Yields (bind name r) s u s' ↔ s' = s.bound name r :=
  yields_modify

@[simp] theorem yields_inScope : Yields (inScope action) s u s' ↔ ∃ t, Yields action s () t ∧ s' = t.rescoped s := by
  simp only [inScope, yields_bind, yields_getDraft, yields_modifyDraft, and_assoc, exists_and_left, exists_eq_left]
  exact ⟨fun ⟨_, t, h⟩ => ⟨t, h⟩, fun ⟨t, h⟩ => ⟨(), t, h⟩⟩

theorem findIdx?_eq_none {pool : List String} : pool.findIdx? (· == value) = none ↔ value ∉ pool := by
  simp only [List.findIdx?_eq_none_iff, beq_eq_false_iff_ne]
  exact ⟨fun h hv => h value hv rfl, fun h x hx => ne_of_mem_of_not_mem hx h⟩

/-- The place of the string is found in the pool that it is in. -/
@[simp] theorem yields_intern :
    Yields (intern value) s index s' ↔
      (s.interned value).shared.pool.findIdx? (· == value) = some index ∧ s' = s.interned value := by
  unfold intern
  simp only [yields_bind, yields_get, and_assoc, exists_and_left, exists_eq_left]
  by_cases hv : value ∈ s.shared.pool
  · cases hp : s.shared.pool.findIdx? (· == value) with
    | none => exact absurd hv (findIdx?_eq_none.mp hp)
    | some => simp [State.interned, hv, hp, eq_comm]
  · have hp := findIdx?_eq_none.mpr hv
    simp [State.interned, hv, hp, List.findIdx?_append, eq_comm, and_comm]

@[simp] theorem yields_findGlobal :
    Yields (findGlobal ctx name) s g s' ↔ ctx.globals.find? (·.name == name) = some g ∧ s' = s := by
  unfold findGlobal
  cases ctx.globals.find? (·.name == name) <;> simp [eq_comm]

@[simp] theorem yields_findVariable :
    Yields (findVariable name) s r s' ↔ s.draft.scope.get? name = some r ∧ s' = s := by
  unfold findVariable
  simp only [yields_bind, yields_getDraft, and_assoc, exists_and_left, exists_eq_left]
  cases s.draft.scope.get? name <;> simp [eq_comm]

@[simp] theorem yields_resolveScalar :
    Yields (resolveScalar ctx type what site) s scalar s' ↔
      type.substitute ctx.bindings = .ok scalar ∧ scalar.isScalar = true ∧ s' = s := by
  simp only [resolveScalar, yields_bind, yields_check, yields_ite, yields_pure, yields_unsupported, and_assoc,
    exists_and_left, exists_eq_left, exists_false, and_false, or_false]
  constructor
  · rintro ⟨_, h, hs, rfl, rfl⟩
    exact ⟨h, hs, rfl⟩
  · rintro ⟨h, hs, rfl⟩
    exact ⟨scalar, h, hs, rfl, rfl⟩

end

end Lower

end Retarget
