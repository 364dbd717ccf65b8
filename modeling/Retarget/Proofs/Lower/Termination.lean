import Retarget.Proofs.Generic.History
import Retarget.Proofs.Lower.Requests

/-!
# Builds end

Making a program takes up the ordinary functions once each, and then instances as long as any wait. A template
may ask for itself at ever new types; the limit on the instances of a template is what ends this, since a
request that goes beyond it puts nothing into the queue (`lower_terminates`).
-/
namespace Retarget

open InstanceCache

namespace Lower

variable {module : Source.Module} {globals : List GlobalVariable} {b : Build} {most : Nat}

/-- The ordinary functions are taken up in order until one of them breaks the build off: how many are taken up,
and what comes of them. -/
inductive TakesOrdinary (module : Source.Module) (globals : List GlobalVariable) :
    List Source.Declaration → Build → Nat → Except Fault (List Procedure) × Build → Prop
  | done {b : Build} : TakesOrdinary module globals [] b 0 (.ok [], b)
  | template {declaration : Source.Declaration} {rest : List Source.Declaration} {b : Build} {taken : Nat}
      {result : Except Fault (List Procedure) × Build} (generic : declaration.typeParameters ≠ [])
      (others : TakesOrdinary module globals rest b taken result) :
      TakesOrdinary module globals (declaration :: rest) b taken result
  | fails {declaration : Source.Declaration} {rest : List Source.Declaration} {b b' : Build} {fault : Fault}
      (plain : declaration.typeParameters = [])
      (lowered : lowerOrRecord module globals declaration ⟨module.name, declaration.name, []⟩ [] b =
        (.error fault, b')) :
      TakesOrdinary module globals (declaration :: rest) b 1 (.error fault, b')
  | next {declaration : Source.Declaration} {rest : List Source.Declaration} {b b' b'' : Build} {taken : Nat}
      {procedure : Option Procedure} {result : Except Fault (List Procedure)} (plain : declaration.typeParameters = [])
      (lowered : lowerOrRecord module globals declaration ⟨module.name, declaration.name, []⟩ [] b =
        (.ok procedure, b'))
      (others : TakesOrdinary module globals rest b' taken (result, b'')) :
      TakesOrdinary module globals (declaration :: rest) b (taken + 1) (result.map (procedure.toList ++ ·), b'')

theorem TakesOrdinary.unique {decls n m result result'} (h : TakesOrdinary module globals decls b n result)
    (h' : TakesOrdinary module globals decls b m result') : n = m ∧ result = result' := by
  induction h generalizing m result' with
  | done =>
    cases h'
    exact ⟨rfl, rfl⟩
  | template generic _ ih =>
    cases h' with
    | template _ others => exact ih others
    | fails plain | next plain => exact absurd plain generic
  | fails plain lowered =>
    cases h' with
    | template generic => exact absurd plain generic
    | fails _ lowered' =>
      rw [lowered] at lowered'
      cases lowered'
      exact ⟨rfl, rfl⟩
    | next _ lowered' =>
      rw [lowered] at lowered'
      cases lowered'
  | next plain lowered _ ih =>
    cases h' with
    | template generic => exact absurd plain generic
    | fails _ lowered' =>
      rw [lowered] at lowered'
      cases lowered'
    | next _ lowered' others =>
      rw [lowered] at lowered'
      cases lowered'
      obtain ⟨rfl, hresult⟩ := ih others
      cases hresult
      exact ⟨rfl, rfl⟩

/-- Each ordinary function is taken up at most once. -/
theorem takesOrdinary_lowerOrdinary (module : Source.Module) (globals : List GlobalVariable)
    (decls : List Source.Declaration) (b : Build) :
    ∃ taken ≤ (decls.filter (·.typeParameters.isEmpty)).length,
      TakesOrdinary module globals decls b taken (lowerOrdinary module globals decls b) := by
  induction decls generalizing b with
  | nil => exact ⟨0, Nat.zero_le _, .done⟩
  | cons decl _ ih =>
    unfold lowerOrdinary
    rw [List.filter_cons]
    cases hplain : decl.typeParameters.isEmpty with
    | false =>
      obtain ⟨taken, hle, hrest⟩ := ih b
      exact ⟨taken, hle, .template (by simpa using hplain) hrest⟩
    | true =>
      rw [List.isEmpty_iff] at hplain
      rcases hfirst : lowerOrRecord module globals decl ⟨module.name, decl.name, []⟩ [] b with
        ⟨fault | proc, b'⟩
      · exact ⟨1, by simp, .fails hplain hfirst⟩
      · obtain ⟨taken, hle, hrest⟩ := ih b'
        exact ⟨taken + 1, by simpa using hle, .next hplain hfirst hrest⟩

/-! ## Builds within the limits -/

/-- The instances of the build are within the limits, and no more than before can be taken up. -/
def Build.Within (module : Source.Module) (most : Nat) (b b' : Build) : Prop :=
  b'.shared.cache.Bounded module.functions.length most ∧
    b'.shared.cache.budget module.functions.length most ≤ b.shared.cache.budget module.functions.length most

/-- Lowering one more function stays within the limits, also where it fails. -/
theorem within_lowerOrRecord (globals : List GlobalVariable) (hb : b.shared.cache.Bounded module.functions.length most)
    (declaration : Source.Declaration) (symbol : Symbol) (bindings : Assoc String Ty) :
    b.Within module most (lowerOrRecord module globals declaration symbol bindings b).2 := by
  unfold lowerOrRecord
  split
  · exact ⟨hb, Nat.le_refl _⟩
  · split
    · exact ⟨hb, Nat.le_refl _⟩
    · rename_i name _
      have hasks := asks_lowerFunction { module, globals, declaration, name, bindings } symbol
      have hbounded := hb.asked (hasks ⟨b.shared, .empty⟩)
      dsimp only
      unfold result at hbounded
      generalize (lowerFunction _ symbol).run.run _ = outcome at hbounded ⊢
      obtain ⟨(diagnostic | fault) | procedure, state⟩ := outcome
      · dsimp only
        split
        · exact ⟨hbounded.1.clear, Nat.le_trans (Nat.add_le_add_left (Nat.zero_le _) _) hbounded.2⟩
        · exact hbounded
      · exact hbounded
      · exact hbounded

theorem Build.Within.trans (h : b.Within module most b') (h' : b'.Within module most b'') : b.Within module most b'' :=
  ⟨h'.1, Nat.le_trans h'.2 h.2⟩

theorem within_lowerOrdinary (globals : List GlobalVariable) (hb : b.shared.cache.Bounded module.functions.length most)
    (decls : List Source.Declaration) : b.Within module most (lowerOrdinary module globals decls b).2 := by
  induction decls generalizing b with
  | nil => exact ⟨hb, Nat.le_refl _⟩
  | cons decl _ ih =>
    unfold lowerOrdinary
    split
    · exact ih hb
    · have hfirst := within_lowerOrRecord globals hb decl ⟨module.name, decl.name, []⟩ []
      generalize lowerOrRecord module globals decl _ [] b = outcome at hfirst ⊢
      obtain ⟨_ | _, _⟩ := outcome
      · exact hfirst
      · exact hfirst.trans (ih hfirst.1)

theorem within_lowerInstance (globals : List GlobalVariable)
    (hb : b.shared.cache.Bounded module.functions.length most) (i : Instance) :
    b.Within module most (lowerInstance module globals i b).2 := by
  unfold lowerInstance
  split
  · exact within_lowerOrRecord globals hb _ _ _
  · exact ⟨hb, Nat.le_refl _⟩

def Build.cached (cache : InstanceCache) (b : Build) : Build := { b with shared := { b.shared with cache } }

/-- Instances are taken up as long as any wait, or until one breaks the build off. -/
def TakesInstances (module : Source.Module) (globals : List GlobalVariable) (b : Build) (taken : Nat)
    (result : Except Fault Unit × Build) : Prop :=
  InstanceCache.Drains (·.shared.cache) Build.cached (lowerInstance module globals) b taken result

/-- A round takes one instance off what can still be taken up. -/
theorem within_round (hb : b.shared.cache.Bounded module.functions.length most)
    (h : Round (·.shared.cache) Build.cached (lowerInstance module globals) b b') :
    b'.shared.cache.Bounded module.functions.length most ∧
      b'.shared.cache.budget module.functions.length most < b.shared.cache.budget module.functions.length most := by
  obtain ⟨place, i, rest, hnext, hlower⟩ := h
  obtain ⟨hrest, hless⟩ := hb.next hnext
  obtain ⟨hbounded, hle⟩ := within_lowerInstance globals (b := b.cached rest) hrest i
  have hless := Nat.lt_of_le_of_lt hle hless
  rcases hlower with hlower | ⟨proc, u, hlower, rfl⟩
  · rw [hlower] at hbounded hless
    exact ⟨hbounded, hless⟩
  · rw [hlower] at hbounded hless
    obtain ⟨hcomplete, hsame⟩ := hbounded.complete place proc
    exact ⟨hcomplete, hsame ▸ hless⟩

/-- The bound on the rounds of a drain is never met. -/
theorem takesInstances_lowerInstances (globals : List GlobalVariable)
    (hb : b.shared.cache.Bounded module.functions.length most) :
    ∃ taken ≤ b.shared.cache.budget module.functions.length most,
      TakesInstances module globals b taken (lowerInstances module globals b) := by
  have hround : ∀ b b' : Build, b.shared.cache.Bounded module.functions.length most →
      Round (·.shared.cache) Build.cached (lowerInstance module globals) b b' → _ :=
    fun _ _ hb hround => within_round hb hround
  obtain ⟨taken, hle, hdrains⟩ := drains_drain (fun _ hb => hb) hround hb
  refine ⟨taken, hle, ?_⟩
  unfold lowerInstances
  have hidle := hdrains.idle
  unfold Build.cached at hdrains hidle
  generalize InstanceCache.drain _ _ _ _ b = outcome at hdrains hidle ⊢
  obtain ⟨_ | u, _⟩ := outcome
  · dsimp only
    split <;> exact hdrains
  · dsimp only
    rwa [if_pos (List.isEmpty_iff.mpr (hidle rfl))]

end Lower

open Lower

/-- A build in which nothing has been lowered. -/
def Lower.Build.start (module : Source.Module) (limits : InstantiationLimits) : Build :=
  ⟨⟨[], .empty module.name limits⟩, [], false⟩

/-- What a build whose instances are all lowered comes to. -/
def Lower.Build.outcome (module : Source.Module) (procedures : List Procedure) (b : Build) : Outcome Program :=
  if !b.errors.isEmpty then .error b.errors
  else .ok {
    module := module.name
    procedures := procedures ++ b.shared.cache.lowered
    globals := module.globals.map (·.lower module.name)
    literals := b.shared.pool.zipIdx.map fun (value, index) => ⟨.natural index, value⟩ }

/-- Making the program of a module, however long it takes: how many functions and instances are taken up to be
lowered, and whether it ends with an internal error or with refusals or a program. -/
inductive Source.Module.Makes (module : Source.Module) (limits : InstantiationLimits) :
    Nat → Checked (Outcome Program) → Prop
  | ordinaryFails {taken : Nat} {b : Build} {fault : Fault}
      (ordinary : TakesOrdinary module (module.globals.map (·.lower module.name)) module.functions
        (.start module limits) taken (.error fault, b)) :
      Makes module limits taken (.error fault)
  | instanceFails {taken taken' : Nat} {procedures : List Procedure} {b b' : Build} {fault : Fault}
      (ordinary : TakesOrdinary module (module.globals.map (·.lower module.name)) module.functions
        (.start module limits) taken (.ok procedures, b))
      (instances : TakesInstances module (module.globals.map (·.lower module.name)) b taken' (.error fault, b')) :
      Makes module limits (taken + taken') (.error fault)
  | ends {taken taken' : Nat} {procedures : List Procedure} {b b' : Build}
      (ordinary : TakesOrdinary module (module.globals.map (·.lower module.name)) module.functions
        (.start module limits) taken (.ok procedures, b))
      (instances : TakesInstances module (module.globals.map (·.lower module.name)) b taken' (.ok (), b')) :
      Makes module limits (taken + taken') (.ok (b'.outcome module procedures))

namespace Source.Module

variable {module : Module} {limits : InstantiationLimits}

theorem lower_eq (module : Module) (limits : InstantiationLimits) :
    module.lower limits =
      match lowerOrdinary module (module.globals.map (·.lower module.name)) module.functions (.start module limits) with
      | (.error fault, _) => .error fault
      | (.ok procedures, b) =>
        match lowerInstances module (module.globals.map (·.lower module.name)) b with
        | (.error fault, _) => .error fault
        | (.ok _, b) => .ok (b.outcome module procedures) := by
  unfold Module.lower Build.start
  dsimp only
  generalize lowerOrdinary module _ module.functions _ = outcome
  obtain ⟨fault | _, b⟩ := outcome
  · rfl
  · dsimp only [Bind.bind, Except.bind]
    generalize lowerInstances module _ b = outcome
    obtain ⟨_ | u, _⟩ := outcome
    · rfl
    · dsimp only [Build.outcome]
      split <;> rfl

/-- There is one way to make a program. -/
theorem Makes.unique {n m result result'} (h : module.Makes limits n result) (h' : module.Makes limits m result') :
    n = m ∧ result = result' := by
  rcases h with ordinary | ⟨ordinary, instances⟩ | ⟨ordinary, instances⟩ <;>
    rcases h' with ordinary' | ⟨ordinary', instances'⟩ | ⟨ordinary', instances'⟩ <;>
    obtain ⟨rfl, heq⟩ := ordinary.unique ordinary' <;> cases heq
  · exact ⟨rfl, rfl⟩
  -- both took up the same ordinary functions, so they go on from one build
  all_goals
    obtain ⟨rfl, heq⟩ := instances.unique instances'
    cases heq <;> exact ⟨rfl, rfl⟩

/-- Making a program ends, whatever the bodies ask for: each ordinary function is taken up at most once, and of
each function no more instances than the limit allows. -/
theorem lower_terminates (module : Source.Module) (limits : InstantiationLimits) (most : Nat)
    (hmost : limits.maxInstancesPerTemplate.value = .ofNat most) :
    ∃ taken ≤ (module.functions.filter (·.typeParameters.isEmpty)).length + module.functions.length * most,
      module.Makes limits taken (module.lower limits) ∧
      ∀ taken' result, module.Makes limits taken' result → taken' = taken ∧ result = module.lower limits := by
  have hstart : (Build.start module limits).shared.cache.Bounded module.functions.length most := .empty _ hmost
  obtain ⟨taken, htaken, hordinary⟩ := takesOrdinary_lowerOrdinary module (module.globals.map (·.lower module.name))
    module.functions (.start module limits)
  obtain ⟨hbounded, hbudget⟩ := within_lowerOrdinary (module.globals.map (·.lower module.name)) hstart module.functions
  have hmakes : ∃ taken' ≤ taken + module.functions.length * most,
      module.Makes limits taken' (module.lower limits) := by
    rw [lower_eq]
    generalize lowerOrdinary module _ module.functions _ = outcome at hordinary hbounded hbudget ⊢
    obtain ⟨fault | _, b⟩ := outcome
    · exact ⟨taken, Nat.le_add_right _ _, .ordinaryFails hordinary⟩
    · obtain ⟨taken', htaken', hinstances⟩ :=
        takesInstances_lowerInstances (module.globals.map (·.lower module.name)) hbounded
      have hle : taken' ≤ module.functions.length * most := Nat.le_trans htaken' hbudget
      dsimp only
      generalize lowerInstances module _ b = outcome at hinstances ⊢
      obtain ⟨_ | u, _⟩ := outcome
      · exact ⟨taken + taken', Nat.add_le_add_left hle _, .instanceFails hordinary hinstances⟩
      · exact ⟨taken + taken', Nat.add_le_add_left hle _, .ends hordinary hinstances⟩
  obtain ⟨taken', hle, hmakes⟩ := hmakes
  exact ⟨taken', by omega, hmakes, fun _ _ h => h.unique hmakes⟩

/-- A template that asks for itself at a pointer to its own type argument, and a function that starts it. -/
def ladder : Source.Module where
  name := "m"
  functions := [
    ⟨"climb", ["T"], [], .void, [.expression (.call (.generic "climb" [.pointer (.parameter "T")]) [] .void none) none],
      false, none⟩,
    ⟨"main", [], [], .void, [.expression (.call (.generic "climb" [.u8]) [] .void none) none], false, none⟩]
  globals := []

theorem ladder_terminates :
    ∃ taken ≤ 5, ladder.Makes Ledger.twoInstances taken (.ok (.error
      [.nonTerminatingInstantiation "climb" [.pointer (.pointer .u8)] "more than 2 distinct instantiations"])) := by
  obtain ⟨taken, hle, hmakes, -⟩ := lower_terminates ladder Ledger.twoInstances 2 rfl
  exact ⟨taken, hle, hmakes⟩

end Source.Module

end Retarget
