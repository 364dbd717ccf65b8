import Mathlib.Data.List.Infix
import Retarget.Proofs.Code.WellFormed
import Retarget.Proofs.Generic.Cache
import Retarget.Proofs.Lower.Layout

/-!
# Drafts grow soundly

Lowering only ever adds to a draft and to what functions share. What is there stays sound: registers are
those of the table, operations join them as they should, and what they name is known or has been asked for.
-/
namespace Retarget

open InstanceCache List

def Instance.blank (i : Instance) : Instance := { i with procedure := none }

/-- Requests were made: the instances that are new have no bodies, and wait behind those that waited. -/
def InstanceCache.Requested (a b : InstanceCache) : Prop :=
  ∃ new, b.instances = a.instances ++ new ∧ (∀ i ∈ new, i.procedure = none) ∧
    b.queue = a.queue ++ List.range' a.instances.length new.length

theorem InstanceCache.Requested.refl (a : InstanceCache) : a.Requested a := ⟨[], by simp⟩

theorem InstanceCache.Requested.trans {a : InstanceCache} (hab : a.Requested b) (hbc : b.Requested c) :
    a.Requested c := by
  obtain ⟨new, hinstances, hnone, hqueue⟩ := hab
  obtain ⟨new', hinstances', hnone', hqueue'⟩ := hbc
  refine ⟨new ++ new', by rw [hinstances', hinstances, append_assoc], fun i hi => ?_, ?_⟩
  · exact (mem_append.mp hi).elim (hnone i) (hnone' i)
  · rw [hqueue', hqueue, hinstances, append_assoc, length_append, length_append,
      ← range'_append_1]

namespace Lower

/-! ## Growth -/

structure Shared.Extends (a b : Shared) : Prop where
  pool : a.pool <+: b.pool
  requests : a.cache.Requested b.cache

theorem Shared.Extends.refl (a : Shared) : a.Extends a := ⟨prefix_refl _, .refl _⟩

theorem Shared.Extends.trans {a : Shared} (hab : a.Extends b) (hbc : b.Extends c) : a.Extends c :=
  ⟨hab.pool.trans hbc.pool, hab.requests.trans hbc.requests⟩

/-- Strings and instances were added, and instances may have got their bodies. -/
structure Shared.Grows (a b : Shared) : Prop where
  pool : a.pool <+: b.pool
  instances : a.cache.instances.map (·.blank) <+: b.cache.instances.map (·.blank)

theorem Shared.Grows.refl (a : Shared) : a.Grows a := ⟨prefix_refl _, prefix_refl _⟩

theorem Shared.Grows.trans {a : Shared} (hab : a.Grows b) (hbc : b.Grows c) : a.Grows c :=
  ⟨hab.pool.trans hbc.pool, hab.instances.trans hbc.instances⟩

theorem Shared.Extends.grows {a : Shared} (h : a.Extends b) : a.Grows b := by
  obtain ⟨_, hinstances, -⟩ := h.requests
  exact ⟨h.pool, by simp [hinstances]⟩

theorem Shared.Grows.exists_instance {a : Shared} (h : a.Grows b) (hi : i ∈ a.cache.instances) :
    ∃ j ∈ b.cache.instances, j.blank = i.blank :=
  mem_map.mp (h.instances.subset (mem_map_of_mem hi))

namespace State

structure Grows (s t : State) : Prop where
  registers : s.draft.registers <+: t.draft.registers
  labels : s.draft.labels ≤ t.draft.labels
  shared : s.shared.Extends t.shared

variable {s t u : State} {ctx : Context}

theorem Grows.refl (s : State) : s.Grows s := ⟨prefix_refl _, Nat.le_refl _, .refl _⟩

theorem Grows.trans (hst : s.Grows t) (htu : t.Grows u) : s.Grows u :=
  ⟨hst.registers.trans htu.registers, hst.labels.trans htu.labels, hst.shared.trans htu.shared⟩

section
variable (h : s.Grows t)
include h

theorem Grows.mem (hr : r ∈ s.draft.registers) : r ∈ t.draft.registers :=
  h.registers.subset hr

theorem Grows.emitted (i : Instruction) : s.Grows (t.emitted i) := { h with }

theorem Grows.allocated (type : Ty) : s.Grows (t.allocated type) :=
  { h with registers := h.registers.trans (prefix_append _ _) }

theorem Grows.labelled : s.Grows t.labelled := { h with labels := h.labels.trans (Nat.le_succ _) }

theorem Grows.rescoped (outer : State) : s.Grows (t.rescoped outer) := { h with }

theorem Grows.computed (type : Ty) (op : Register → Operation) (why : String) :
    s.Grows (t.computed type op why) :=
  (h.allocated type).emitted _

theorem Grows.declared (name : String) (type : Ty) : s.Grows (t.declared name type) :=
  { h with registers := (h.allocated type).registers }

theorem Grows.interned (value : String) : s.Grows (t.interned value) := by
  unfold State.interned
  split
  · exact h
  · exact { h with shared := ⟨h.shared.pool.trans (prefix_append _ _), h.shared.requests⟩ }

end

/-- A request keeps the instances, and may add one. -/
theorem Grows.resolved (h : Resolves ctx s callee symbol t) : s.Grows t := by
  cases h with
  | function => exact .refl s
  | generic _ _ request =>
    refine ⟨prefix_refl _, Nat.le_refl _, prefix_refl _, ?_⟩
    obtain ⟨i, -, -, rfl⟩ | ⟨_, -, hresult, -⟩ | ⟨_, -, -, -, -, rfl⟩ := instantiate_cases request
    · exact .refl _
    · cases hresult
    · exact ⟨[_], rfl, by simp [made], rfl⟩

end State

/-! ## Soundness -/

/-- The symbol is that of an ordinary function, or of an instance that has been asked for. -/
def Callable (ctx : Context) (shared : Shared) (symbol : Symbol) : Prop :=
  (∃ d ∈ ctx.module.functions, d.typeParameters = [] ∧ symbol = ⟨ctx.module.name, d.name, []⟩) ∨
    ∃ i ∈ shared.cache.instances, i.symbol = symbol

/-- What the operation names is known, or has been asked for. -/
def Refers (ctx : Context) (shared : Shared) : Operation → Prop
  | .call (.function symbol) _ _ => Callable ctx shared symbol
  | .addressOf (.global module name) _ => ∃ g ∈ ctx.globals, g.module = module ∧ g.name = name
  | .addressOf (.literal index) _ => ∃ i < shared.pool.length, index = .natural i
  | _ => True

theorem Callable.mono {a} (h : a.Grows b) (hsym : Callable ctx a symbol) : Callable ctx b symbol := by
  rcases hsym with hplain | ⟨i, hi, hsym⟩
  · exact Or.inl hplain
  · obtain ⟨j, hj, hblank⟩ := h.exists_instance hi
    exact Or.inr ⟨j, hj, (congrArg Instance.symbol hblank).trans hsym⟩

theorem Refers.mono {a} (h : a.Grows b) (ho : Refers ctx a operation) : Refers ctx b operation := by
  cases operation with
  | call target =>
    cases target with
    | routine => trivial
    | function => exact Callable.mono h ho
  | addressOf symbol =>
    cases symbol with
    | global => exact ho
    | literal =>
      obtain ⟨i, hi, rfl⟩ := ho
      exact ⟨i, Nat.lt_of_lt_of_le hi h.pool.length_le, rfl⟩
  | _ => trivial

/-- The strings of the pool differ, and the instances are those of the module's templates. -/
structure Shared.Sound (module : Source.Module) (a : Shared) : Prop where
  pool : a.pool.Nodup
  home : a.cache.module = module.name
  instances : ∀ i ∈ a.cache.instances, i.IsMade module

namespace State

structure Sound (ctx : Context) (s : State) : Prop where
  numbered : s.draft.registers.IsNumbered
  scope : ∀ name r, s.draft.scope.get? name = some r → r ∈ s.draft.registers
  locals : ∀ l ∈ s.draft.locals, l.register ∈ s.draft.registers ∧ l.register.type = l.type
  mentions : ∀ i ∈ s.draft.instructions, ∀ r ∈ i.operation.mentions, r ∈ s.draft.registers
  shaped : ∀ i ∈ s.draft.instructions, i.operation.Shaped
  refers : ∀ i ∈ s.draft.instructions, Refers ctx s.shared i.operation
  shared : s.shared.Sound ctx.module

variable {s t u : State} {ctx : Context}

theorem fresh_mem_allocated (s : State) (type : Ty) : s.fresh type ∈ (s.allocated type).draft.registers :=
  mem_append_right _ (mem_singleton_self _)

section
variable (hs : s.Sound ctx)
include hs

theorem Sound.emitted {op} (hmentions : ∀ r ∈ op.mentions, r ∈ s.draft.registers)
    (hshaped : op.Shaped) (hrefers : Refers ctx s.shared op) : (s.emitted ⟨op, why⟩).Sound ctx := by
  have hcases : ∀ i ∈ (s.emitted ⟨op, why⟩).draft.instructions,
      i ∈ s.draft.instructions ∨ i = ⟨op, why⟩ := by simp [State.emitted]
  exact {
    hs with
    mentions := fun i hi => by
      rcases hcases i hi with hi | rfl
      · exact hs.mentions i hi
      · exact hmentions
    shaped := fun i hi => by
      rcases hcases i hi with hi | rfl
      · exact hs.shaped i hi
      · exact hshaped
    refers := fun i hi => by
      rcases hcases i hi with hi | rfl
      · exact hs.refers i hi
      · exact hrefers }

/-- What is there stays sound when more is there. -/
theorem Sound.of_grows (hgrows : s.Grows t) (hcode : t.draft.instructions = s.draft.instructions)
    (hlocals : t.draft.locals = s.draft.locals) (hscope : t.draft.scope = s.draft.scope)
    (hnumbered : t.draft.registers.IsNumbered) (hshared : t.shared.Sound ctx.module) : t.Sound ctx where
  numbered := hnumbered
  scope name r hr := hgrows.mem (hs.scope name r (hscope ▸ hr))
  locals l hl := by
    rw [hlocals] at hl
    exact ⟨hgrows.mem (hs.locals l hl).1, (hs.locals l hl).2⟩
  mentions i hi r hr := hgrows.mem (hs.mentions i (hcode ▸ hi) r hr)
  shaped i hi := hs.shaped i (hcode ▸ hi)
  refers i hi := (hs.refers i (hcode ▸ hi)).mono hgrows.shared.grows
  shared := hshared

theorem Sound.allocated (type : Ty) : (s.allocated type).Sound ctx :=
  hs.of_grows ((Grows.refl s).allocated type) rfl rfl rfl (hs.numbered.append_fresh type) hs.shared

theorem Sound.labelled : s.labelled.Sound ctx :=
  hs.of_grows (Grows.refl s).labelled rfl rfl rfl hs.numbered hs.shared

theorem Sound.interned (value : String) : (s.interned value).Sound ctx := by
  have hgrows := (Grows.refl s).interned value
  unfold State.interned at *
  split
  · exact hs
  · rename_i hnew
    rw [if_neg hnew] at hgrows
    refine hs.of_grows hgrows rfl rfl rfl hs.numbered { hs.shared with pool := ?_ }
    simpa [nodup_append] using ⟨hs.shared.pool, fun a ha heq => hnew (heq ▸ ha)⟩

theorem Sound.resolved (h : Resolves ctx s callee symbol t) :
    t.Sound ctx ∧ Callable ctx t.shared symbol := by
  have hgrows := Grows.resolved h
  cases h with
  | @function _ declaration _ found plain =>
    have hmem := mem_of_find?_eq_some found
    exact ⟨hs, Or.inl ⟨declaration, (mem_zipIdx' hmem).2 ▸ getElem_mem _, plain, rfl⟩⟩
  | @generic _ declaration place _ concrete made _ found _ request =>
    have hplace : ctx.module.functions[place]? = some declaration := by
      obtain ⟨hlt, hd⟩ := mem_zipIdx' (mem_of_find?_eq_some found)
      exact List.getElem?_eq_some_iff.mpr ⟨hlt, hd.symm⟩
    obtain ⟨i, hfind, hresult, rfl⟩ | ⟨_, -, hresult, -⟩ | ⟨names, -, hrefusal, hnames, hresult, rfl⟩ :=
      instantiate_cases request
    · cases hresult
      exact ⟨hs.of_grows hgrows rfl rfl rfl hs.numbered hs.shared,
        Or.inr ⟨made, (key_of_find? hfind).1, rfl⟩⟩
    · cases hresult
    · cases hresult
      have hmade : (s.shared.cache.made place declaration concrete names).IsMade ctx.module :=
        ⟨declaration, names, hplace, (of_refusal?_eq_none hrefusal).1, rfl, hnames, by
          rw [← hs.shared.home]
          rfl⟩
      refine ⟨hs.of_grows hgrows rfl rfl rfl hs.numbered { hs.shared with instances := fun i hi => ?_ },
        Or.inr ⟨_, mem_append_right _ (mem_singleton_self _), rfl⟩⟩
      rcases mem_append.mp hi with hi | hi
      · exact hs.shared.instances i hi
      · exact mem_singleton.mp hi ▸ hmade

theorem Sound.bound (hr : r ∈ s.draft.registers) (name : String) : (s.bound name r).Sound ctx :=
  { hs with
    scope := fun other r' hr' => by
      rw [show (s.bound name r).draft.scope = s.draft.scope.set name r from rfl, Assoc.get?_set] at hr'
      split at hr'
      · cases hr'
        exact hr
      · exact hs.scope other r' hr' }

theorem Sound.declared (name : String) (type : Ty) : (s.declared name type).Sound ctx := by
  have hbound := (hs.allocated type).bound (s.fresh_mem_allocated type) name
  refine { hbound with locals := fun l hl => ?_ }
  rcases mem_append.mp hl with hl | hl
  · exact hbound.locals l hl
  · rw [mem_singleton.mp hl]
    exact ⟨s.fresh_mem_allocated type, rfl⟩

/-- At the end of a block the names of before are in scope again. -/
theorem Sound.rescoped {outer} (houter : outer.Sound ctx) (hgrows : outer.Grows s) :
    (s.rescoped outer).Sound ctx :=
  { hs with scope := fun name r hr => hgrows.mem (houter.scope name r hr) }

theorem Sound.computed {op : Register → Operation}
    (hmentions : ∀ r ∈ (op (s.fresh type)).mentions, r = s.fresh type ∨ r ∈ s.draft.registers)
    (hshaped : (op (s.fresh type)).Shaped) (hrefers : Refers ctx s.shared (op (s.fresh type))) :
    (s.computed type op why).Sound ctx := by
  refine (hs.allocated type).emitted (fun r hr => ?_) hshaped hrefers
  rcases hmentions r hr with rfl | hr
  · exact s.fresh_mem_allocated type
  · exact ((Grows.refl s).allocated type).mem hr

end

theorem fresh_mem_computed (s : State) (type : Ty) (op : Register → Operation) (why : String) :
    s.fresh type ∈ (s.computed type op why).draft.registers :=
  s.fresh_mem_allocated type

/-- A register that is new holds what was computed. -/
theorem Sound.computes {op : Register → Operation} (ht : t.Sound ctx) (hst : s.Grows t)
    (hmentions : ∀ r ∈ (op (t.fresh type)).mentions, r = t.fresh type ∨ r ∈ t.draft.registers)
    (hshaped : (op (t.fresh type)).Shaped) (hrefers : Refers ctx t.shared (op (t.fresh type))) :
    (t.computed type op why).Sound ctx ∧ s.Grows (t.computed type op why) ∧
      t.fresh type ∈ (t.computed type op why).draft.registers :=
  ⟨ht.computed hmentions hshaped hrefers, hst.computed _ _ _, fresh_mem_computed ..⟩

theorem mem_computed (hr : r ∈ s.draft.registers) {op : Register → Operation} :
    r ∈ (s.computed type op why).draft.registers :=
  mem_append_left _ hr

end State

/-! ## Lowering keeps drafts sound -/

variable {ctx : Context}

open State

attribute [local simp] Operation.mentions Operation.reads Operation.writes

namespace State.Sound

variable {s : State} (hs : s.Sound ctx) {why : String}
include hs

theorem label (name : String) : (s.emitted ⟨.label name, why⟩).Sound ctx :=
  hs.emitted (by simp) trivial trivial

theorem goto (name : String) : (s.emitted ⟨.goto name, why⟩).Sound ctx :=
  hs.emitted (by simp) trivial trivial

theorem gotoIfFalse (htest : test ∈ s.draft.registers) (name : String) :
    (s.emitted ⟨.gotoIfFalse test name, why⟩).Sound ctx :=
  hs.emitted (by simpa using htest) trivial trivial

theorem move (hsource : source ∈ s.draft.registers) (htarget : target ∈ s.draft.registers) :
    (s.emitted ⟨.move source target, why⟩).Sound ctx :=
  hs.emitted (by simpa using ⟨hsource, htarget⟩) trivial trivial

/-- The address of a variable that is found. -/
theorem addressed (hfound : ctx.globals.find? (·.name == name) = some g) (type : Ty) :
    (s.computed type (.addressOf (.global g.module g.name)) why).Sound ctx :=
  hs.computed (by simp) trivial
    ⟨g, mem_of_find?_eq_some hfound, rfl, rfl⟩

end State.Sound

mutual

theorem LowersExpression.sound :
    LowersExpression ctx e s r code t → s.Sound ctx → t.Sound ctx ∧ s.Grows t ∧ r ∈ t.draft.registers
  | .number .., hs | .boolean, hs => hs.computes (.refl s) (by simp) trivial trivial
  | .string isInterned place, hs => by
    subst isInterned
    have hindex := (findIdx?_eq_some_iff_getElem.mp place).1
    refine (hs.interned _).computes ((Grows.refl s).interned _) ?_ trivial ⟨_, hindex, rfl⟩
    simp
  | .identifier bound, hs => hs.computes (.refl s) (by simp [hs.scope _ _ bound]) trivial trivial
  | .global found _ _ isAddressed, hs => by
    subst isAddressed
    refine (hs.addressed found _).computes ((Grows.refl s).computed _ _ _) ?_ trivial trivial
    simp [fresh_mem_computed]
  | .binary _ _ _ first second leftType rightType, hs => by
    obtain ⟨ht, hst, hl⟩ := first.sound hs
    obtain ⟨hu, htu, hr⟩ := second.sound ht
    refine hu.computes (hst.trans htu) ?_ ⟨leftType, rightType⟩ trivial
    simp [htu.mem hl, hr]
  | .comparison first second same ordered, hs => by
    obtain ⟨ht, hst, hl⟩ := first.sound hs
    obtain ⟨hu, htu, hr⟩ := second.sound ht
    refine hu.computes (hst.trans htu) ?_ ⟨same, ordered⟩ trivial
    simp [htu.mem hl, hr]
  | .not lower, hs | .index lower, hs | .dereference _ _ lower, hs | .keep _ _ lower, hs => by
    obtain ⟨ht, hst, hr⟩ := lower.sound hs
    refine ht.computes hst ?_ trivial trivial
    simp [hr]
  | .call lower, hs => by
    obtain ⟨ht, hst, hr⟩ := lower.sound hs
    exact ⟨ht, hst, hr _ rfl⟩
  | .addressOf found, hs => ⟨hs.addressed found _, (Grows.refl s).computed _ _ _, fresh_mem_computed ..⟩
  | .convert _ _ lower pointers different, hs => by
    obtain ⟨ht, hst, hr⟩ := lower.sound hs
    refine ht.computes hst ?_ ⟨pointers, different⟩ trivial
    simp [hr]
  | .ternary _ _ isResult _ _ lowerTest startsTrue lowerTrue startsFalse lowerFalse, hs => by
    obtain ⟨ht, hst, htest⟩ := lowerTest.sound (hs.allocated _).labelled.labelled
    obtain ⟨hu, htu, hfirst⟩ := lowerTrue.sound (startsTrue ▸ ht.gotoIfFalse htest _)
    subst isResult startsTrue
    have hresult := htu.mem (hst.mem (s.fresh_mem_allocated _))
    obtain ⟨hv, huv, hsecond⟩ := lowerFalse.sound (startsFalse ▸ ((hu.move hfirst hresult).goto _).label _)
    subst startsFalse
    have hsu := ((((Grows.refl s).allocated _).labelled.labelled.trans hst).emitted _).trans htu
    have hsv := (((hsu.emitted _).emitted _).emitted _).trans huv
    exact ⟨(hv.move hsecond (huv.mem hresult)).label _, (hsv.emitted _).emitted _, huv.mem hresult⟩

theorem LowersArguments.sound :
    LowersArguments ctx args s regs code t → s.Sound ctx →
      t.Sound ctx ∧ s.Grows t ∧ ∀ r ∈ regs, r ∈ t.draft.registers
  | .nil, hs => ⟨hs, .refl s, by simp⟩
  | .cons first remaining, hs => by
    obtain ⟨ht, hst, hr⟩ := first.sound hs
    obtain ⟨hu, htu, hothers⟩ := remaining.sound ht
    refine ⟨hu, hst.trans htu, ?_⟩
    simpa using ⟨htu.mem hr, hothers⟩

theorem LowersElement.sound {name index s t address element code} :
    LowersElement ctx name index s address element code t → s.Sound ctx →
      t.Sound ctx ∧ s.Grows t ∧ address ∈ t.draft.registers
  | .element found _ _ _ lower isBase isAddressed, hs => by
    subst isBase isAddressed
    obtain ⟨ht, hst, hr⟩ := lower.sound hs
    refine (ht.addressed found _).computes (hst.computed _ _ _) ?_ trivial trivial
    simp [fresh_mem_computed, mem_computed hr]

theorem LowersCall.sound {args : List Source.Expression} {type callee s t result code} :
    LowersCall ctx args type callee s result code t → s.Sound ctx →
      t.Sound ctx ∧ s.Grows t ∧ ∀ r, result = some r → r ∈ t.draft.registers
  | .routine _ _ lower, hs => by
    obtain ⟨ht, hst, hr⟩ := lower.sound hs
    refine ⟨ht.emitted ?_ trivial trivial, hst.emitted _, by simp⟩
    simpa using hr
  | .procedure resolves lower .., hs => by
    obtain ⟨ht, hcallable⟩ := hs.resolved resolves
    obtain ⟨hu, htu, hr⟩ := lower.sound ht
    refine ⟨hu.emitted ?_ trivial ?_, ((Grows.resolved resolves).trans htu).emitted _, by simp⟩
    · simpa using hr
    · exact Callable.mono htu.shared.grows hcallable
  | .function resolves lower .., hs => by
    obtain ⟨ht, hcallable⟩ := hs.resolved resolves
    obtain ⟨hu, htu, hr⟩ := lower.sound ht
    refine ⟨hu.computed ?_ trivial ?_, ((Grows.resolved resolves).trans htu).computed _ _ _, ?_⟩
    · simpa [or_imp, forall_and] using fun r hr' => Or.inr (hr r hr')
    · exact Callable.mono htu.shared.grows hcallable
    · intro r hresult
      cases hresult
      exact fresh_mem_computed ..

end

theorem State.Sound.store {s : State} (hs : s.Sound ctx) (haddr : addr ∈ s.draft.registers)
    (hvalue : value ∈ s.draft.registers) : (s.emitted ⟨.store addr value, why⟩).Sound ctx :=
  hs.emitted (by simpa using ⟨haddr, hvalue⟩) trivial trivial

theorem State.Sound.step {s : State} (hs : s.Sound ctx)
    (hreg : reg ∈ s.draft.registers) (hnumeric : reg.type.isNumeric = true) :
    (s.emitted ⟨.step direction reg, why⟩).Sound ctx :=
  hs.emitted (by simpa using hreg) hnumeric trivial

theorem LowersAssignment.sound {target value s t} {code : CodeTree} (h : LowersAssignment ctx value target s code t)
    (hs : s.Sound ctx) : t.Sound ctx ∧ s.Grows t := by
  cases h with
  | named lower bound =>
    obtain ⟨ht, hst, hr⟩ := lower.sound hs
    exact ⟨ht.move hr (ht.scope _ _ bound), hst.emitted _⟩
  | global found _ _ lower isAddress =>
    subst isAddress
    obtain ⟨ht, hst, hr⟩ := lower.sound hs
    exact ⟨(ht.addressed found _).store (fresh_mem_computed ..) (mem_computed hr), (hst.computed _ _ _).emitted _⟩
  | index lowerTarget lower | dereference lowerTarget lower =>
    obtain ⟨ht, hst, haddr⟩ := lowerTarget.sound hs
    obtain ⟨hu, htu, hr⟩ := lower.sound ht
    exact ⟨hu.store (htu.mem haddr) hr, (hst.trans htu).emitted _⟩

theorem State.fresh_mem_declared (s : State) (name : String) (type : Ty) :
    s.fresh type ∈ (s.declared name type).draft.registers :=
  s.fresh_mem_allocated type

theorem State.mem_declared {s : State} (hr : r ∈ s.draft.registers) : r ∈ (s.declared name type).draft.registers :=
  mem_append_left _ hr

theorem LowersForHead.sound {name type first limit s t counter test header exit} {code code' : CodeTree}
    (h : LowersForHead ctx name type first limit s counter header exit code code' test t) (hs : s.Sound ctx) :
    t.Sound ctx ∧ s.Grows t ∧ counter ∈ t.draft.registers ∧ counter.type.isNumeric = true := by
  cases h with
  | @head t u v w start bound counter current scalar _ _ _ _ _ _ _ _ _
      lowerFirst lowerLimit resolved numeric same isCounter isHeader isExit isStarted isCurrent isRead =>
    obtain ⟨ht, hst, hstart⟩ := lowerFirst.sound hs
    obtain ⟨hu, htu, hbound⟩ := lowerLimit.sound ht
    have hcounter : counter ∈ (u.declared name scalar).draft.registers := isCounter ▸ fresh_mem_declared ..
    have hv : v.Sound ctx ∧ u.Grows v ∧ counter ∈ v.draft.registers := by
      subst isStarted
      exact ⟨((hu.declared _ _).move (mem_declared (htu.mem hstart)) hcounter).labelled.labelled.label _,
        (((((Grows.refl u).declared _ _).emitted _).labelled.labelled).emitted _), hcounter⟩
    obtain ⟨hv, huv, hcounter⟩ := hv
    have hw : w.Sound ctx ∧ v.Grows w ∧ current ∈ w.draft.registers := by
      subst isRead isCurrent
      refine hv.computes (.refl v) ?_ trivial trivial
      simp [hcounter]
    obtain ⟨hw, hvw, hcurrent⟩ := hw
    have hbound := hvw.mem (huv.mem hbound)
    have htype : current.type = scalar := by
      rw [isCurrent]
      rfl
    have hshaped : ∀ dest, (Operation.compare .lt current bound dest).Shaped := by
      refine fun _ => ⟨htype.trans same.symm, fun hpointer => ?_⟩
      rw [htype] at hpointer
      cases scalar <;> simp_all [Ty.isPointer, Ty.isNumeric]
    refine ⟨(hw.computed ?_ (hshaped _) trivial).gotoIfFalse (fresh_mem_computed ..) _,
      (((((hst.trans htu).trans huv).trans hvw).computed _ _ _).emitted _), mem_append_left _ (hvw.mem hcounter),
      isCounter ▸ numeric⟩
    simp [hcurrent, hbound]

mutual

theorem LowersStatement.sound {stmt} {s t : State} {code} :
    LowersStatement ctx stmt s code t → s.Sound ctx → t.Sound ctx ∧ s.Grows t
  | .initialized lower _ _ isHome, hs => by
    subst isHome
    obtain ⟨ht, hst, hr⟩ := lower.sound hs
    exact ⟨(ht.declared _ _).move (mem_declared hr) (fresh_mem_declared ..), (hst.declared _ _).emitted _⟩
  | .zeroed _ _ isHome, hs => by
    subst isHome
    refine ⟨(hs.declared _ _).emitted ?_ trivial trivial, ((Grows.refl s).declared _ _).emitted _⟩
    simpa using fresh_mem_declared ..
  | .assignment lower, hs => lower.sound hs
  | .increment bound numeric, hs | .decrement bound numeric, hs =>
    ⟨hs.step (hs.scope _ _ bound) numeric, (Grows.refl s).emitted _⟩
  | .call lower, hs | .expression _ lower, hs => by
    obtain ⟨ht, hst, -⟩ := lower.sound hs
    exact ⟨ht, hst⟩
  | .ret lower, hs => by
    obtain ⟨ht, hst, hr⟩ := lower.sound hs
    refine ⟨ht.emitted ?_ trivial trivial, hst.emitted _⟩
    simpa using hr
  | .retNone, hs => by
    refine ⟨hs.emitted ?_ trivial trivial, (Grows.refl s).emitted _⟩
    simp
  | .conditional _ _ lowerTest startsTrue lowerTrue startsFalse lowerFalse, hs => by
    obtain ⟨ht, hst, htest⟩ := lowerTest.sound hs.labelled.labelled
    have hsound := startsTrue ▸ ht.gotoIfFalse htest _
    obtain ⟨hu, htu⟩ := lowerTrue.sound hsound
    have hsound' := startsFalse ▸ ((hu.rescoped hsound htu).goto _).label _
    obtain ⟨hv, huv⟩ := lowerFalse.sound hsound'
    refine ⟨(hv.rescoped hsound' huv).label _, ?_⟩
    subst startsTrue startsFalse
    have hsu := (((Grows.refl s).labelled.labelled.trans hst).emitted _).trans htu
    exact (((((hsu.rescoped _).emitted _).emitted _).trans huv).rescoped _).emitted _
  | .whileLoop _ _ isStarted lowerTest isBody lowerBody, hs => by
    obtain ⟨ht, hst, htest⟩ := lowerTest.sound (isStarted ▸ hs.labelled.labelled.label _)
    have hsound := isBody ▸ ht.gotoIfFalse htest _
    obtain ⟨hu, htu⟩ := lowerBody.sound hsound
    refine ⟨((hu.rescoped hsound htu).goto _).label _, ?_⟩
    subst isStarted isBody
    have hsu := ((((Grows.refl s).labelled.labelled.emitted _).trans hst).emitted _).trans htu
    exact ((hsu.rescoped _).emitted _).emitted _
  | .forLoop lowerHead lowerBody, hs => by
    obtain ⟨ht, hst, hcounter, hnumeric⟩ := lowerHead.sound hs
    obtain ⟨hu, htu⟩ := lowerBody.sound ht
    have hsu := hst.trans htu
    have hloop := hu.rescoped ht htu
    exact ⟨(((hloop.step (htu.mem hcounter) hnumeric).goto _).label _).rescoped hs
      ((((hsu.rescoped _).emitted _).emitted _).emitted _),
      (((((hsu.rescoped _).emitted _).emitted _).emitted _).rescoped _)⟩

theorem LowersStatements.sound {stmts s t code} :
    LowersStatements ctx stmts s code t → s.Sound ctx → t.Sound ctx ∧ s.Grows t
  | .nil, hs => ⟨hs, .refl s⟩
  | .cons first remaining, hs => by
    obtain ⟨ht, hst⟩ := first.sound hs
    obtain ⟨hu, htu⟩ := remaining.sound ht
    exact ⟨hu, hst.trans htu⟩

end

theorem LowersParameters.sound {params s t result} (h : LowersParameters ctx params s result t)
    (hs : s.Sound ctx) : t.Sound ctx ∧ s.Grows t ∧ ∀ q ∈ result, q.register ∈ t.draft.registers := by
  induction h with
  | nil => exact ⟨hs, .refl _, by simp⟩
  | @cons p _ s t scalar _ _ _ _ ih =>
    obtain ⟨ht, hst, hothers⟩ := ih ((hs.allocated scalar).bound (s.fresh_mem_allocated scalar) p.name)
    refine ⟨ht, { hst with registers := (prefix_append _ _).trans hst.registers }, ?_⟩
    simpa using ⟨hst.mem (s.fresh_mem_allocated scalar), hothers⟩

theorem Closes.sound (h : Closes returnType s code code' t) (hs : s.Sound ctx) : t.Sound ctx ∧ s.Grows t := by
  cases h with
  | added =>
    refine ⟨hs.emitted ?_ trivial trivial, (Grows.refl s).emitted _⟩
    simp
  | kept => exact ⟨hs, .refl s⟩

/-- A function that returns nothing ends with a return. -/
theorem Closes.returns (h : Closes returnType s code code' t) (hvoid : returnType = .void) :
    ∃ i register, t.draft.instructions.getLast? = some i ∧ i.operation = .ret register := by
  cases h with
  | added => exact ⟨_, none, getLast?_concat, rfl⟩
  | kept needs =>
    simp only [needsReturn, hvoid, decide_true, Bool.true_and] at needs
    split at needs
    · rename_i register why hlast
      exact ⟨_, register, hlast, rfl⟩
    · cases needs

theorem State.sound_empty {shared} (h : shared.Sound ctx.module) : Sound ctx ⟨shared, .empty⟩ where
  numbered := by intro i r hi; cases hi
  scope := by intro name r hr; cases hr
  locals := by intro l hl; cases hl
  mentions := by intro i hi; cases hi
  shaped := by intro i hi; cases hi
  refers := by intro i hi; cases hi
  shared := h

theorem LowersFunction.sound {symbol s t f code} (h : LowersFunction ctx symbol s f code t) (hs : s.Sound ctx) :
    t.Sound ctx ∧ s.Grows t ∧ ∀ q ∈ f.parameters, q.register ∈ t.draft.registers := by
  cases h with
  | function lowerParameters _ _ lowerBody closes =>
    obtain ⟨ht, hst, hparams⟩ := lowerParameters.sound hs
    obtain ⟨hu, htu⟩ := lowerBody.sound ht
    obtain ⟨hv, huv⟩ := closes.sound (hu.rescoped ht htu)
    exact ⟨hv, ((hst.trans htu).rescoped _).trans huv, fun q hq => huv.mem (htu.mem (hparams q hq))⟩

end Lower

end Retarget
