import Retarget.Proofs.Lower.Builds
import Retarget.Proofs.Lower.Growth
import Retarget.Proofs.Lower.Shape

/-!
# Assembling programs

A program that lowering gives has one procedure for every ordinary function of the module, and one for every
instance that was asked for on the way. While a build runs without refusals, an instance has its body or waits for
it; when nothing waits any more, every instance has its body. So the program is well formed and closed
(`lower_wellFormed`).
-/
namespace Retarget

open InstanceCache List Source

namespace Lower

/-- The procedure is what lowering makes of the function; what it asks for is there in the end. -/
def Lowered (module : Source.Module) (final : Shared) (declaration : Source.Declaration) (symbol : Symbol)
    (bindings : Assoc String Ty) (f : Procedure) : Prop :=
  ∃ name code shared t, LowersFunction (module.context declaration name bindings) symbol ⟨shared, .empty⟩ f code t ∧
    shared.Sound module ∧ t.shared.Grows final

variable {module : Module} {declaration : Declaration} {symbol : Symbol} {bindings : Assoc String Ty}
  {f : Procedure}

theorem Lowered.mono (h : Lowered module a decl symbol bindings f) (hgrows : a.Grows b) :
    Lowered module b decl symbol bindings f := by
  obtain ⟨name, code, shared, t, hlower, hshared, ht⟩ := h
  exact ⟨name, code, shared, t, hlower, hshared, ht.trans hgrows⟩

theorem Lowered.symbol_eq (h : Lowered module final decl symbol bindings f) : f.symbol = symbol := by
  obtain ⟨_, _, _, t, ⟨⟩, -⟩ := h
  rfl

/-! ## Runs without refusals -/

theorem Tries.lowered (h : Tries (module.context decl name bindings) symbol a (.ok f) b)
    (ha : a.Sound module) : b.Sound module ∧ a.Extends b ∧ Lowered module b decl symbol bindings f := by
  obtain ⟨t, hresult, rfl⟩ := h
  obtain ⟨code, hlower⟩ := lowersFunction_of_yields hresult
  obtain ⟨ht, hgrows, -⟩ := hlower.sound (State.sound_empty ha)
  exact ⟨ht.shared, hgrows.shared, name, code, a, t, hlower, ha, .refl _⟩

/-- How far a build without errors has come with the instances. -/
structure Shared.Progress (module : Source.Module) (a start : Shared) : Prop where
  sound : a.Sound module
  grows : start.Grows a
  waiting : ∀ (place : Nat) (i : Instance), a.cache.instances[place]? = some i → i.procedure = none →
    place ∈ a.cache.queue
  lowered : ∀ i ∈ a.cache.instances, ∀ f, i.procedure = some f →
    ∃ d, module.functions[i.template]? = some d ∧ Lowered module a d i.symbol i.bindings f

theorem Shared.grows_complete (a : Shared) (place : Nat) (f : Procedure) :
    a.Grows { a with cache := a.cache.complete place f } := by
  refine ⟨prefix_refl _, ?_⟩
  rw [map_complete fun _ _ => rfl]

theorem Shared.Sound.completed {a : Shared} (ha : a.Sound module) (place : Nat) (f : Procedure) :
    Shared.Sound module { a with cache := a.cache.complete place f } := by
  have hcache : a.cache.IsOf module := ⟨ha.home, ha.instances⟩
  have hcompleted := Ledger.isOf_complete hcache place f
  exact ⟨ha.pool, hcompleted.home, hcompleted.made⟩

/-- What is asked for waits behind the others. -/
theorem Shared.Progress.extended {a : Shared} (ha : a.Progress module start) (h : a.Extends b)
    (hb : b.Sound module) : b.Progress module start := by
  obtain ⟨_, hinstances, hnone, hqueue⟩ := h.requests
  refine ⟨hb, ha.grows.trans h.grows, fun place i hplace hproc => ?_, fun i hi f hf => ?_⟩
  · rw [hqueue, mem_append, mem_range'_1]
    rw [hinstances, getElem?_append] at hplace
    split at hplace
    · exact Or.inl (ha.waiting place i hplace hproc)
    · have hlt := (List.getElem?_eq_some_iff.mp hplace).1
      exact Or.inr ⟨by omega, by omega⟩
  · rcases mem_append.mp (hinstances ▸ hi) with hi | hi
    · obtain ⟨d, hd, hlowered⟩ := ha.lowered i hi f hf
      exact ⟨d, hd, hlowered.mono h.grows⟩
    · rw [hnone i hi] at hf
      cases hf

/-- The first instance that waits gets its body. -/
theorem Shared.Progress.completed {start a : Shared} {place queue i} (ha : a.Progress module start)
    (hqueue : a.cache.queue = place :: queue) (hplace : a.cache.instances[place]? = some i)
    (hd : module.functions[i.template]? = some decl) (hf : Lowered module a decl i.symbol i.bindings f) :
    Shared.Progress module { a with cache := { a.cache with queue }.complete place f } start := by
  have hcomplete := Shared.grows_complete { a with cache := { a.cache with queue } } place f
  have hgrows : a.Grows { a with cache := { a.cache with queue }.complete place f } :=
    ⟨hcomplete.pool, hcomplete.instances⟩
  have hsound : Shared.Sound module { a with cache := { a.cache with queue } } :=
    ⟨ha.sound.pool, ha.sound.home, ha.sound.instances⟩
  refine ⟨hsound.completed place f, ha.grows.trans hgrows, fun n j hj hproc => ?_, fun j hj g hproc => ?_⟩
  · obtain ⟨k, hk, rfl⟩ := getElem?_complete hj
    split at hproc
    · cases hproc
    · rename_i hother
      have hmem := ha.waiting n k hk hproc
      rw [hqueue] at hmem
      exact (mem_cons.mp hmem).resolve_left fun h => hother h.symm
  · obtain ⟨n, hn⟩ := mem_iff_getElem?.mp hj
    obtain ⟨k, hk, rfl⟩ := getElem?_complete hn
    split at hproc
    · rename_i hsame
      subst hsame
      cases hplace.symm.trans hk
      cases hproc
      rw [if_pos rfl]
      exact ⟨decl, hd, hf.mono hgrows⟩
    · rename_i hother
      rw [if_neg hother]
      obtain ⟨d, hd, hlowered⟩ := ha.lowered k (mem_of_getElem? hk) g hproc
      exact ⟨d, hd, hlowered.mono hgrows⟩

/-- An instance is taken off the queue, asks for others and gets its body. -/
theorem Shared.Progress.specialized {start a b : Shared} {place} {rest : InstanceCache} {i name}
    (ha : a.Progress module start) (next : a.cache.next? = some (place, i, rest))
    (hd : module.functions[i.template]? = some decl)
    (htried : Tries (module.context decl name i.bindings) i.symbol { a with cache := rest } (.ok f) b) :
    Shared.Progress module { b with cache := b.cache.complete place f } start := by
  obtain ⟨queue, hqueue, hplace, rfl⟩ := next?_cases next
  obtain ⟨hb, hextends, hlowered⟩ := htried.lowered ⟨ha.sound.pool, ha.sound.home, ha.sound.instances⟩
  obtain ⟨new, hinstances, hnone, hqueue'⟩ := hextends.requests
  dsimp only at hinstances hqueue'
  -- it makes no difference that the instance had left the queue while it was lowered
  have hwaiting : Shared.Progress module { b with cache := { b.cache with queue := place :: b.cache.queue } } start :=
    ha.extended ⟨hextends.pool, new, hinstances, hnone, by rw [hqueue, hqueue', cons_append]⟩
      ⟨hb.pool, hb.home, hb.instances⟩
  have hfound : b.cache.instances[place]? = some i := by
    rw [hinstances, getElem?_append_left (List.getElem?_eq_some_iff.mp hplace).1, hplace]
  obtain ⟨text, code, shared, t, hlower, hshared, hgrows⟩ := hlowered
  exact hwaiting.completed rfl hfound hd ⟨text, code, shared, t, hlower, hshared, hgrows.pool, hgrows.instances⟩

/-- In the end every ordinary function that was left has its procedure, and the instances have theirs or wait. -/
theorem Steps.progress (h : Steps module w attempts u)
    (hclean : ∀ a ∈ attempts, a.failure? = .none) (hdone : u.IsDone) (hw : w.shared.Progress module start) :
    u.shared.Progress module start ∧
      Forall₂ (fun d f => Lowered module u.shared d.1 ⟨module.name, d.1.name, []⟩ [] f) w.ordinary
        (attempts.filterMap (·.ordinary?)) := by
  induction h generalizing start with
  | none => exact ⟨hw, hdone.1 ▸ .nil⟩
  | @next w u v a attempts first _ ih =>
    have hclean' : ∀ a ∈ attempts, a.failure? = .none := fun a ha => hclean a (.tail _ ha)
    have hfirst := hclean a (.head _)
    cases first with
    | @ordinary d _ _ _ b _ verdict _ tried =>
      cases verdict with
      | error => cases hfirst
      | ok =>
        obtain ⟨hb, hextends, hf⟩ := tried.lowered hw.sound
        have hprogress := hw.extended hextends hb
        have hrest : b.Progress module b := { hprogress with grows := .refl _ }
        obtain ⟨hv, hall⟩ := ih hclean' hdone hrest
        exact ⟨{ hv with grows := hprogress.grows.trans hv.grows }, .cons (hf.mono hv.grows) hall⟩
    | @specialized _ _ _ _ _ _ _ verdict next found _ tried =>
      cases verdict with
      | error => cases hfirst
      | ok => exact ih hclean' hdone (hw.specialized next found tried)

end Lower

/-! ## Programs -/

open Lower

/-- The program is what the ordinary functions and the instances make of the module. -/
structure Program.Assembled (module : Source.Module) (final : Shared) (p : Program) : Prop where
  named : p.module = module.name
  globals : p.globals = module.globals.map (·.lower module.name)
  literals : p.literals = final.pool.zipIdx.map fun (value, index) => ⟨.natural index, value⟩
  sound : final.Sound module
  ordinary : ∃ ordinary, p.procedures = ordinary ++ final.cache.lowered ∧
    List.Forall₂ (fun d f => Lowered module final d ⟨module.name, d.name, []⟩ [] f)
      (module.functions.filter (·.typeParameters.isEmpty)) ordinary
  instances : ∀ i ∈ final.cache.instances, ∃ d f, module.functions[i.template]? = some d ∧ i.procedure = some f ∧
    Lowered module final d i.symbol i.bindings f

theorem Lower.Shared.sound_empty (module : Module) (limits : InstantiationLimits) :
    Shared.Sound module ⟨[], .empty module.name limits⟩ :=
  ⟨nodup_nil, rfl, fun _ hi => absurd hi not_mem_nil⟩

theorem Source.Module.assembled_of_lower {module limits} {p : Program} (h : module.lower limits = .ok (.ok p)) :
    ∃ final, p.Assembled module final := by
  obtain ⟨attempts, final, _, ⟨hsteps, hdone⟩, hp⟩ := run_of_lower h
  unfold Build.outcome at hp
  split at hp
  · cases hp
  · rename_i hnone
    cases hp
    have hclean : ∀ a ∈ attempts, a.failure? = none := filterMap_eq_nil_iff.mp (by simpa using hnone)
    have hstart : Shared.Progress module ⟨[], .empty module.name limits⟩ ⟨[], .empty module.name limits⟩ :=
      ⟨Shared.sound_empty module limits, .refl _, fun _ _ hi => (nomatch hi), fun _ hi => nomatch hi⟩
    obtain ⟨hprogress, hall⟩ := hsteps.progress hclean hdone hstart
    refine ⟨final.shared, rfl, rfl, rfl, hprogress.sound, ⟨_, rfl, ?_⟩, fun i hi => ?_⟩
    · have hordinary : module.functions.filter (·.typeParameters.isEmpty) = module.ordinary.map Prod.fst := by
        show _ = (module.functions.zipIdx.filter ((·.typeParameters.isEmpty) ∘ Prod.fst)).map Prod.fst
        rw [← filter_map, zipIdx_map_fst]
      rw [hordinary]
      exact forall₂_map_left_iff.mpr hall
    · cases hf : i.procedure with
      | none =>
        obtain ⟨place, hplace⟩ := mem_iff_getElem?.mp hi
        have hwaits := hprogress.waiting place i hplace hf
        rw [hdone.2] at hwaits
        cases hwaits
      | some f =>
        obtain ⟨d, hd, hlowered⟩ := hprogress.lowered i hi f hf
        exact ⟨d, f, hd, rfl, hlowered⟩

namespace Program.Assembled

variable {module : Module} {final : Shared} {p : Program} {f : Procedure} (hp : p.Assembled module final)
include hp

theorem lowered (hf : f ∈ p.procedures) :
    ∃ d ∈ module.functions, ∃ symbol bindings, Lowered module final d symbol bindings f := by
  obtain ⟨_, hprocedures, hall⟩ := hp.ordinary
  rcases mem_append.mp (hprocedures ▸ hf) with hf | hf
  · obtain ⟨d, hd, hlowered⟩ := exists_origin hall hf
    exact ⟨d, mem_of_mem_filter hd, _, _, hlowered⟩
  · obtain ⟨i, hi, hbody⟩ := mem_filterMap.mp hf
    obtain ⟨d, g, hd, hg, hlowered⟩ := hp.instances i hi
    rw [hbody] at hg
    cases hg
    exact ⟨d, mem_of_getElem? hd, _, _, hlowered⟩

/-- There is a procedure for everything that may be called. -/
theorem callable {ctx} (hctx : ctx.module = module) (h : Callable ctx final symbol) : ∃ f, p.find? symbol = some f := by
  obtain ⟨_, hprocedures, hall⟩ := hp.ordinary
  have hmem : ∃ f ∈ p.procedures, f.symbol = symbol := by
    rw [hprocedures]
    rcases h with ⟨d, hd, hplain, rfl⟩ | ⟨i, hi, rfl⟩
    · have hmem : d ∈ module.functions.filter (·.typeParameters.isEmpty) :=
        mem_filter.mpr ⟨hctx ▸ hd, by simp [hplain]⟩
      obtain ⟨f, hf, hlowered⟩ := exists_partner hall hmem
      exact ⟨f, mem_append_left _ hf, by rw [hlowered.symbol_eq, hctx]⟩
    · obtain ⟨d, f, -, hf, hlowered⟩ := hp.instances i hi
      exact ⟨f, mem_append_right _ (mem_filterMap.mpr ⟨i, hi, hf⟩), hlowered.symbol_eq⟩
  obtain ⟨f, hf, rfl⟩ := hmem
  exact Option.isSome_iff_exists.mp (find?_isSome.mpr ⟨f, hf, by simp⟩)

/-- Whatever an operation may refer to is part of the program. -/
theorem linked {ctx} (hmodule : ctx.module = module) (hglobals : ctx.globals = p.globals)
    (h : Refers ctx final op) : op.Linked p := by
  cases op with
  | call target =>
    cases target with
    | routine => trivial
    | function => exact hp.callable hmodule h
  | addressOf symbol =>
    cases symbol with
    | global =>
      obtain ⟨g, hg, hnamed⟩ := h
      exact ⟨g, hglobals ▸ hg, hnamed⟩
    | literal =>
      obtain ⟨i, _, rfl⟩ := h
      refine ⟨⟨.natural i, final.pool[i]⟩, ?_, rfl⟩
      rw [hp.literals]
      exact mem_map.mpr ⟨(final.pool[i], i), by simp [mem_zipIdx_iff_getElem?], rfl⟩
  | _ => trivial

theorem procedure_wellFormed (hf : f ∈ p.procedures) : f.WellFormed p := by
  obtain ⟨d, -, _, _, name, code, _, t, hlower, hshared, hgrows⟩ := hp.lowered hf
  obtain ⟨hsound, -, hparameters⟩ := hlower.sound (State.sound_empty hshared)
  obtain ⟨-, hlays⟩ := hlower.lays
  have hoperations := hlower.operations_eq
  have hlabels : f.instructions.filterMap (·.operation.labelName?) = code.labels := by
    rw [CodeTree.labels, ← hoperations, filterMap_map]
    rfl
  cases hlower with
  | function _ _ _ _ closes =>
    exact {
      numbered := hsound.numbered
      parameters := hparameters
      locals := hsound.locals
      mentions := hsound.mentions
      labels := hlabels ▸ hlays.labelled.nodup
      jumps := fun i hi name hjump => by
        have hmem := hlays.labelled.structured.jumps (hoperations ▸ mem_map_of_mem hi) hjump
        obtain ⟨j, hj, hlabel⟩ := mem_filterMap.mp (hlabels ▸ hmem)
        exact ⟨j, hj, Operation.eq_label hlabel⟩
      returns := closes.returns
      shaped := hsound.shaped
      linked := fun i hi => hp.linked rfl hp.globals.symm ((hsound.refers i hi).mono hgrows) }

end Program.Assembled

/-- Whatever lowering makes of a module is well formed. -/
theorem Source.Module.lower_wellFormed {module : Source.Module} {limits : InstantiationLimits} {p : Program}
    (h : module.lower limits = .ok (.ok p)) : p.WellFormed := by
  obtain ⟨final, hp⟩ := Module.assembled_of_lower h
  refine ⟨fun f hf => hp.procedure_wellFormed hf, fun i s hs => ?_, ?_⟩
  · rw [hp.literals] at hs
    simp only [getElem?_map, getElem?_zipIdx, Option.map_map, Option.map_eq_some_iff] at hs
    obtain ⟨_, -, rfl⟩ := hs
    simp
  · have hvalues : p.literals.map (·.value) = final.pool := by
      rw [hp.literals, map_map]
      exact zipIdx_map_fst 0 _
    exact hvalues ▸ hp.sound.pool

/-- Greets a number of times; the count goes through a template. -/
def Source.Module.greeting : Source.Module :=
  let t := Ty.parameter "T"
  let same : Source.Declaration :=
    ⟨"same", ["T"], [⟨"x", t⟩], t, [.ret (some (.identifier "x" t none)) none], false, none⟩
  let count : Source.Expression := .call (.generic "same" [.u8]) [.identifier "n" .u8 none] .u8 none
  let greet : Source.Expression := .call (.routine .printString) [.string "Hi" none] .void none
  { name := "M"
    functions := [same, ⟨"greet", [], [⟨"n", .u8⟩], .void,
      [.forLoop "i" .u8 (.number 0 .u8 none) count [.expression greet none] none], false, none⟩]
    globals := [] }

/-- The instance of the template and the string that the loop prints are part of the program. -/
theorem Source.Module.greeting_lower_wellFormed :
    ∃ p, greeting.lower ⟨⟨8, "8"⟩, ⟨8, "8"⟩⟩ = .ok (.ok p) ∧ p.procedures.map (·.symbol.name) = ["greet", "same"] ∧
      p.literals.map (·.value) = ["Hi"] ∧ p.WellFormed := by
  have hlowers : ((greeting.lower ⟨⟨8, "8"⟩, ⟨8, "8"⟩⟩).toOption.bind (·.toOption)).map
      (fun p => (p.procedures.map (·.symbol.name), p.literals.map (·.value))) = some (["greet", "same"], ["Hi"]) := by
    decide +kernel
  obtain ⟨p, hlower, hsame⟩ := Checked.exists_of_map hlowers
  obtain ⟨hprocedures, hliterals⟩ := Prod.mk.inj hsame
  exact ⟨p, hlower, hprocedures, hliterals, lower_wellFormed hlower⟩

end Retarget
