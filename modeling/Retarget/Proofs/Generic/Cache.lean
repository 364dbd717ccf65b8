import Mathlib.Data.List.Nodup
import Retarget.Generic
import Retarget.Proofs.Checked
import Retarget.Proofs.Number.Whole

/-!
# The cache of instances

What a request can do to a cache, and what one round of draining its queue can do. An instance is told from
every other one by its key, the place of its template with its type arguments.
-/
namespace Retarget

open Checked List

/-- What tells an instance from every other one. -/
abbrev Instance.Key := Nat × List Ty

def Instance.key (i : Instance) : Instance.Key := (i.template, i.typeArguments)

/-- The instance is what a request makes of one of the module's templates. -/
def Instance.IsMade (module : Source.Module) (i : Instance) : Prop :=
  ∃ declaration names, module.functions[i.template]? = some declaration ∧
    i.typeArguments.length = declaration.typeParameters.length ∧
    i.bindings = bindTypeParameters declaration i.typeArguments ∧
    mangling declaration i.typeArguments = .ok names ∧ i.symbol = ⟨module.name, declaration.name, names⟩

namespace InstanceCache

def keys (c : InstanceCache) : List Instance.Key := c.instances.map (·.key)

def waiting (c : InstanceCache) : List Instance.Key := c.queue.filterMap (c.keys[·]?)

/-- The cache with one more instance, which waits to be lowered. -/
def reserved (c : InstanceCache) (i : Instance) : InstanceCache :=
  { c with instances := c.instances ++ [i], queue := c.queue ++ [c.instances.length] }

/-- The instance that a first request makes. -/
def made (c : InstanceCache) (template : Nat) (declaration : Source.Declaration) (typeArguments names : List Ty) :
    Instance where
  template
  typeArguments
  bindings := bindTypeParameters declaration typeArguments
  symbol := ⟨c.module, declaration.name, names⟩
  procedure := none

section
variable {c c' : InstanceCache} {template : Nat} {declaration : Source.Declaration} {typeArguments : List Ty}

/-! ## Requests -/

theorem find?_eq_none : c.find? template typeArgs = none ↔ (template, typeArgs) ∉ c.keys := by
  simp [find?, keys, Instance.key]

theorem key_of_find? {i} (h : c.find? template typeArgs = some i) : i ∈ c.instances ∧ i.key = (template, typeArgs) := by
  have hkey := find?_some h
  simp only [Bool.and_eq_true, beq_iff_eq, decide_eq_true_eq] at hkey
  exact ⟨mem_of_find?_eq_some h, Prod.ext hkey.1 hkey.2⟩

theorem getElem?_keys {n : Nat} {i} (h : c.instances[n]? = some i) : c.keys[n]? = some i.key := by
  simp [keys, h]

/-- An instance is found under its own key, since no other one has it. -/
theorem find?_key {i} (hkeys : c.keys.Nodup) (hi : i ∈ c.instances) : c.find? i.template i.typeArguments = some i := by
  cases hfound : c.find? i.template i.typeArguments with
  | none => exact absurd (mem_map_of_mem hi) (find?_eq_none.mp hfound)
  | some =>
    obtain ⟨hj, hkey⟩ := key_of_find? hfound
    rw [inj_on_of_nodup_map hkeys hj hi hkey]

/-- What is known when nothing stands against a new instance. -/
theorem of_refusal?_eq_none (h : c.refusal? template decl typeArgs = .ok none) :
    typeArgs.length = decl.typeParameters.length ∧
      (∀ t ∈ typeArgs, c.limits.maxTypeDepth.value.lt (.ofNat t.nestingDepth) = false) ∧
      c.limits.maxInstancesPerTemplate.value.le (.ofNat (c.instances.countP (·.template == template))) = false := by
  unfold refusal? at h
  by_cases hlen : typeArgs.length = decl.typeParameters.length
  · simp only [hlen, ne_eq, not_true_eq_false, if_false] at h
    cases hdeep : typeArgs.find? fun t => c.limits.maxTypeDepth.value.lt (.ofNat t.nestingDepth) with
    | some =>
      simp only [hdeep] at h
      obtain ⟨_, -, h⟩ := bind_eq_ok.mp h
      cases h
    | none =>
      simp only [hdeep] at h
      refine ⟨hlen, fun t ht => ?_, ?_⟩
      · simpa using List.find?_eq_none.mp hdeep t ht
      · by_contra hfull
        rw [Bool.not_eq_false] at hfull
        rw [if_pos hfull] at h
        cases h
  · simp only [hlen, ne_eq, not_false_eq_true, if_true] at h
    cases h

/-- Everything that a request can do: it finds the instance, is turned down, or makes the instance. -/
theorem instantiate_cases {result} (h : c.instantiate template decl typeArgs = .ok (result, c')) :
    (∃ i, c.find? template typeArgs = some i ∧ result = .ok i ∧ c' = c) ∨
    (∃ diag, c.find? template typeArgs = none ∧ result = .error diag ∧ c' = c) ∨
    ∃ names, c.find? template typeArgs = none ∧ c.refusal? template decl typeArgs = .ok none ∧
      mangling decl typeArgs = .ok names ∧
      result = .ok (c.made template decl typeArgs names) ∧
      c' = c.reserved (c.made template decl typeArgs names) := by
  unfold instantiate at h
  cases hfound : c.find? template typeArgs with
  | some i =>
    rw [hfound] at h
    cases h
    exact .inl ⟨i, rfl, rfl, rfl⟩
  | none =>
    rw [hfound] at h
    obtain ⟨refusal, hrefusal, h⟩ := bind_eq_ok.mp h
    cases refusal with
    | some =>
      cases h
      exact .inr (.inl ⟨_, rfl, rfl, rfl⟩)
    | none =>
      obtain ⟨names, hnames, h⟩ := bind_eq_ok.mp h
      cases h
      exact .inr (.inr ⟨names, rfl, hrefusal, hnames, rfl, rfl⟩)

/-! ## Draining -/

theorem next?_cases {place i} (h : c.next? = some (place, i, c')) :
    ∃ queue, c.queue = place :: queue ∧ c.instances[place]? = some i ∧ c' = { c with queue } := by
  unfold next? at h
  cases hqueue : c.queue with
  | nil =>
    rw [hqueue] at h
    cases h
  | cons first queue =>
    rw [hqueue] at h
    cases hplace : c.instances[first]? with
    | none => simp [hplace] at h
    | some =>
      simp only [hplace, Option.some.injEq, Prod.mk.injEq] at h
      obtain ⟨rfl, rfl, rfl⟩ := h
      exact ⟨queue, rfl, hplace, rfl⟩

/-- The instances of a cache in which one got its body. -/
theorem getElem?_complete {place n proc j} (h : (c.complete place proc).instances[n]? = some j) :
    ∃ i, c.instances[n]? = some i ∧ j = if place = n then { i with procedure := some proc } else i := by
  rw [complete, getElem?_modify] at h
  obtain ⟨i, hi, rfl⟩ := Option.map_eq_some_iff.mp h
  exact ⟨i, hi, rfl⟩

/-- What does not look at bodies is the same for an instance that got its body. -/
theorem map_complete {α : Type} {g : Instance → α} (hg : ∀ (i : Instance) p, g { i with procedure := p } = g i)
    (c : InstanceCache) (place : Nat) (proc : Procedure) :
    (c.complete place proc).instances.map g = c.instances.map g := by
  unfold complete
  refine ext_getElem? fun n => ?_
  simp only [getElem?_map, getElem?_modify]
  cases c.instances[n]? with
  | none => rfl
  | some => by_cases h : place = n <;> simp [h, hg]

@[simp] theorem keys_complete (c : InstanceCache) (place : Nat) (proc : Procedure) :
    (c.complete place proc).keys = c.keys :=
  map_complete (fun _ _ => rfl) c place proc

end

section
variable {σ ε : Type} {get : σ → InstanceCache} {set : InstanceCache → σ → σ}
  {lower : Instance → σ → Except ε (Option Procedure) × σ}

/-- One round of draining: the first instance that waits is lowered and gets the body that came of it. -/
def Round (get : σ → InstanceCache) (set : InstanceCache → σ → σ)
    (lower : Instance → σ → Except ε (Option Procedure) × σ) (s t : σ) : Prop :=
  ∃ place i rest, (get s).next? = some (place, i, rest) ∧
    (lower i (set rest s) = (.ok none, t) ∨
      ∃ procedure u, lower i (set rest s) = (.ok (some procedure), u) ∧
        t = set ((get u).complete place procedure) u)

/-- What a drain does first: it finds nothing that waits, lowering fails, or a round goes by. -/
theorem drain_cases (get : σ → InstanceCache) (set : InstanceCache → σ → σ)
    (lower : Instance → σ → Except ε (Option Procedure) × σ) (rounds : Nat) (s : σ) :
    ((get s).next? = none ∧ drain get set lower (rounds + 1) s = (.ok (), s)) ∨
    (∃ place i rest e t, (get s).next? = some (place, i, rest) ∧ lower i (set rest s) = (.error e, t) ∧
      drain get set lower (rounds + 1) s = (.error e, t)) ∨
    ∃ t, Round get set lower s t ∧ drain get set lower (rounds + 1) s = drain get set lower rounds t := by
  rw [drain, drainWith]
  cases hnext : (get s).next? with
  | none => exact .inl ⟨rfl, rfl⟩
  | some next =>
    obtain ⟨place, i, rest⟩ := next
    dsimp only [Option.map_some]
    rcases hlower : lower i (set rest s) with ⟨e | _ | proc, t⟩ <;> dsimp only
    · exact .inr (.inl ⟨place, i, rest, e, t, rfl, hlower, rfl⟩)
    · exact .inr (.inr ⟨t, ⟨place, i, rest, hnext, .inl hlower⟩, rfl⟩)
    · exact .inr (.inr ⟨_, ⟨place, i, rest, hnext, .inr ⟨proc, t, hlower, rfl⟩⟩, rfl⟩)

/-- A drain that goes well keeps what every round keeps. -/
theorem drain_invariant {I : σ → Prop} (hround : ∀ s t, I s → Round get set lower s t → I t) {rounds s s'} (hs : I s)
    (h : drain get set lower rounds s = (.ok (), s')) : I s' := by
  induction rounds generalizing s with
  | zero =>
    cases h
    exact hs
  | succ rounds ih =>
    obtain ⟨-, heq⟩ | ⟨place, i, rest, e, t, -, -, heq⟩ | ⟨t, hst, heq⟩ := drain_cases get set lower rounds s <;>
      rw [heq] at h
    · cases h
      exact hs
    · cases h
    · exact ih (hround s t hs hst) h

end

end InstanceCache

end Retarget
