import Mathlib.Data.List.Forall2
import Retarget.Proofs.Lower.Yields

/-!
# What lowering is made of

Many facts about lowering concern one run of it, or two runs in modules that differ in bodies at most, and every way
of composing actions keeps them. Such a fact holds of a whole function as soon as it holds of the few actions that
change or look up something. How the constructs are put together from these is gone through here, once for all.
-/
namespace Retarget

open List

/-! ## Modules with the same heads -/

namespace Source

/-- The functions differ in their bodies at most. -/
def Declaration.SameHead (d d' : Declaration) : Prop := d' = { d with body := d'.body }

/-- The modules differ in the bodies of their functions at most. -/
structure Module.SameHeads (m m' : Module) : Prop where
  name : m'.name = m.name
  globals : m'.globals = m.globals
  functions : List.Forall₂ Declaration.SameHead m.functions m'.functions

variable {m m' : Module} {d : Declaration} {place : Nat}

theorem Module.SameHeads.refl (m : Module) : m.SameHeads m := ⟨rfl, rfl, forall₂_same.mpr fun _ _ => rfl⟩

theorem Module.SameHeads.getElem? (h : m.SameHeads m') (hd : m.functions[place]? = some d) :
    ∃ d', m'.functions[place]? = some d' ∧ d.SameHead d' := by
  obtain ⟨hlt, rfl⟩ := List.getElem?_eq_some_iff.mp hd
  have hlt' : place < m'.functions.length := h.functions.length_eq ▸ hlt
  exact ⟨_, getElem?_eq_getElem hlt', forall₂_iff_get.mp h.functions |>.2 place hlt hlt'⟩

theorem find?_zipIdx_of_forall₂ (h : Forall₂ Declaration.SameHead as bs) (name : String) (start : Nat) :
    Option.Rel (fun a b => a.1.SameHead b.1 ∧ a.2 = b.2) ((as.zipIdx start).find? (·.1.name == name))
      ((bs.zipIdx start).find? (·.1.name == name)) := by
  induction h generalizing start with
  | nil => exact .none
  | @cons a b as bs hab _ ih =>
    have hname : b.name = a.name := by rw [hab]
    rw [zipIdx_cons, zipIdx_cons, find?_cons, find?_cons, hname]
    cases a.name == name with
    | true => exact .some ⟨hab, rfl⟩
    | false => exact ih (start + 1)

end Source

namespace Lower

/-- The drafts differ in their instructions at most. -/
structure Draft.Alike (d d' : Draft) : Prop where
  registers : d'.registers = d.registers
  scope : d'.scope = d.scope
  locals : d'.locals = d.locals
  labels : d'.labels = d.labels

/-- The same function, in a module of the same heads. -/
def Context.within (ctx : Context) (m' : Source.Module) : Context := { ctx with module := m' }

/-- A relation between actions that is kept by composing them, and what it takes of the actions that lowering is
made of. Values that the actions come to are related in their turn. -/
structure Congruence (ctx : Context) (m' : Source.Module) where
  Holds {α : Type} (R : α → α → Prop) (x x' : Lower α) : Prop
  bindRelated {α β : Type} {R : α → α → Prop} {S : β → β → Prop} {x x' : Lower α} {f f' : α → Lower β} :
    Holds R x x' → (∀ a a', R a a' → Holds S (f a) (f' a')) → Holds S (x >>= f) (x' >>= f')
  related {α : Type} {R : α → α → Prop} {a a' : α} : R a a' → Holds R (pure a) (pure a')
  stop {α : Type} {R : α → α → Prop} (e : Abort) : Holds R (throw e) (throw e)
  draft : Holds Draft.Alike getDraft getDraft
  /-- A change of the draft that does not look at the instructions. -/
  change {f f' : Draft → Draft} : (∀ d d', d.Alike d' → (f d).Alike (f' d')) →
    Holds Eq (modifyDraft f) (modifyDraft f')
  /-- The places of one string in two pools have nothing to do with each other. -/
  place (value : String) : Holds (fun _ _ => True) (intern value) (intern value)
  heads : ctx.module.SameHeads m'
  request {place : Nat} {d d' : Source.Declaration} (found : ctx.module.functions[place]? = some d)
    (found' : m'.functions[place]? = some d') (typeArguments : List Ty) :
    Holds Eq (requestInstance ctx place d typeArguments) (requestInstance (ctx.within m') place d' typeArguments)

namespace Congruence

/-! ## Actions -/

section
variable {ctx : Context} {m' : Source.Module} {C : Congruence ctx m'} {α β : Type} {R : α → α → Prop} {S : β → β → Prop}

theorem Holds.bind {f f' : α → Lower β} (hx : C.Holds Eq x x') (hf : ∀ a, C.Holds S (f a) (f' a)) :
    C.Holds S (x >>= f) (x' >>= f') :=
  C.bindRelated hx fun a _ h => h ▸ hf a

theorem holds_pure : C.Holds Eq (pure a) (pure a) := C.related rfl

theorem Holds.map (hx : C.Holds Eq x x') (f : α → β) : C.Holds Eq (f <$> x) (f <$> x') := by
  rw [map_eq_pure_bind, map_eq_pure_bind]
  exact hx.bind fun _ => holds_pure

theorem Holds.ite {c : Prop} [Decidable c] (hx : C.Holds R x x') (hy : C.Holds R y y') :
    C.Holds R (if c then x else y) (if c then x' else y') := by
  split
  · exact hx
  · exact hy

theorem holds_check : C.Holds Eq (check x) (check x) := by
  cases x
  · exact C.stop _
  · exact holds_pure

theorem holds_unsupported : C.Holds R (unsupported ctx construct site) (unsupported (ctx.within m') construct site) :=
  C.stop _

/-- What is emitted does not matter. -/
theorem holds_emit : C.Holds Eq (emit op why) (emit op' why') :=
  C.change fun _ _ h => { h with }

theorem holds_allocate : C.Holds Eq (allocate type) (allocate type) := by
  refine C.bindRelated C.draft fun d d' h => ?_
  rw [h.registers]
  refine Holds.bind (C.change ?_) fun _ => holds_pure
  exact fun _ _ h => { h with registers := rfl }

/-- A register and the instruction that fills it. -/
theorem holds_fill {op op' : Register → Operation} :
    C.Holds Eq (allocate type >>= fun r => emit (op r) why >>= fun _ => pure r)
      (allocate type >>= fun r => emit (op' r) why' >>= fun _ => pure r) :=
  holds_allocate.bind fun _ => holds_emit.bind fun _ => holds_pure

theorem holds_makeLabel : C.Holds Eq (makeLabel kind) (makeLabel kind) := by
  refine C.bindRelated C.draft fun d d' h => ?_
  dsimp only
  rw [h.labels]
  refine Holds.bind (C.change ?_) fun _ => holds_pure
  exact fun _ _ h => { h with labels := rfl }

theorem holds_bindName : C.Holds Eq (bind name reg) (bind name reg) :=
  C.change fun _ _ h => { h with scope := by rw [h.scope] }

theorem Holds.inScope (hx : C.Holds Eq x x') : C.Holds Eq (inScope x) (inScope x') := by
  refine C.bindRelated C.draft fun d d' h => ?_
  dsimp only
  rw [h.scope]
  exact hx.bind fun _ => C.change fun _ _ h => { h with scope := rfl }

theorem holds_findGlobal : C.Holds Eq (findGlobal ctx name) (findGlobal (ctx.within m') name) := by
  show C.Holds Eq (findGlobal ctx name) (findGlobal ctx name)
  unfold findGlobal
  cases ctx.globals.find? (·.name == name) with
  | none => exact C.stop _
  | some => exact holds_pure

theorem holds_findVariable : C.Holds Eq (findVariable name) (findVariable name) := by
  refine C.bindRelated C.draft fun d d' h => ?_
  rw [h.scope]
  cases d.scope.get? name with
  | none => exact C.stop _
  | some => exact holds_pure

theorem holds_resolveScalar :
    C.Holds Eq (resolveScalar ctx type what site) (resolveScalar (ctx.within m') type what site) :=
  holds_check.bind fun _ => .ite holds_pure (holds_check.bind fun _ => holds_unsupported)

/-- The one run may emit an instruction where the other does not. -/
theorem Holds.afterEmit (hx : C.Holds R x x') (c c' : Prop) [Decidable c] [Decidable c'] (op : Operation)
    (why : String) :
    C.Holds R (if c then emit op why >>= fun _ => x else x)
      (if c' then emit op why >>= fun _ => x' else x') := by
  have hskip : C.Holds Eq (emit op why) (modifyDraft id) := C.change fun _ _ h => { h with }
  have hskip' : C.Holds Eq (modifyDraft id) (emit op why) := C.change fun _ _ h => { h with }
  split <;> split
  · exact holds_emit.bind fun _ => hx
  · exact hskip.bind fun _ => hx
  · exact hskip'.bind fun _ => hx
  · exact hx

end

/-! ## Calls -/

section
variable {ctx : Context} {m' : Source.Module} {C : Congruence ctx m'}

theorem holds_findDeclaration (name : String) :
    C.Holds
      (fun a b => ctx.module.functions[a.1]? = some a.2 ∧ m'.functions[b.1]? = some b.2 ∧ a.1 = b.1 ∧ a.2.SameHead b.2)
      (findDeclaration ctx name) (findDeclaration (ctx.within m') name) := by
  have hplace : ∀ {functions : List Source.Declaration} {entry : Source.Declaration × Nat},
      functions.zipIdx.find? (·.1.name == name) = some entry → functions[entry.2]? = some entry.1 := fun hfound => by
    obtain ⟨hlt, hd⟩ := mem_zipIdx' (mem_of_find?_eq_some hfound)
    exact List.getElem?_eq_some_iff.mpr ⟨hlt, hd.symm⟩
  have hfind := Source.find?_zipIdx_of_forall₂ C.heads.functions name 0
  unfold findDeclaration Context.within
  cases hfound : ctx.module.functions.zipIdx.find? (·.1.name == name) <;>
    cases hfound' : m'.functions.zipIdx.find? (·.1.name == name) <;> rw [hfound, hfound'] at hfind <;> cases hfind
  case none.none => exact C.stop _
  case some.some hsame => exact C.related ⟨hplace hfound, hplace hfound', hsame.2, hsame.1⟩

theorem holds_globalAddress : C.Holds Eq (globalAddress global pointee why) (globalAddress global pointee why) :=
  holds_fill

theorem Holds.elementAddress (hindex : C.Holds Eq index index') :
    C.Holds Eq (elementAddress ctx name index site) (elementAddress (ctx.within m') name index' site) := by
  refine holds_findGlobal.bind fun global => ?_
  split
  · exact holds_resolveScalar.bind fun _ => hindex.bind fun _ => holds_globalAddress.bind fun _ =>
      holds_allocate.bind fun _ => holds_emit.bind fun _ => holds_pure
  · exact holds_unsupported

theorem Holds.callFunction (hargs : C.Holds Eq args args') :
    C.Holds Eq (callFunction ctx symbol args type site)
      (callFunction (ctx.within m') symbol args' type site) := by
  refine hargs.bind fun _ => holds_check.bind fun returnType => ?_
  refine .ite (holds_pure.bind fun _ => ?_)
    (((holds_resolveScalar.bind fun _ => holds_allocate).map _).bind fun _ => ?_) <;>
  exact holds_check.bind fun _ => holds_emit.bind fun _ => holds_pure

theorem Holds.lowerCall {args args'} (hargs : C.Holds Eq args args') {callee count type site} :
    C.Holds Eq (lowerCall ctx callee count args type site)
      (lowerCall (ctx.within m') callee count args' type site) := by
  cases callee with
  | routine routine =>
    unfold Lower.lowerCall
    dsimp only
    cases routine.parameters? with
    | none => exact holds_unsupported
    | some =>
      refine .ite (holds_unsupported.bind fun _ => ?_) ?_ <;>
      exact hargs.bind fun _ => holds_emit.bind fun _ => holds_pure
  | function name =>
    refine C.bindRelated (holds_findDeclaration name) fun a a' ⟨_, _, _, hsame⟩ => ?_
    have hsym : C.Holds Eq (plainSymbol ctx a.2 site) (plainSymbol (ctx.within m') a'.2 site) := by
      unfold plainSymbol
      rw [hsame]
      refine .ite ?_ holds_unsupported
      show C.Holds Eq (pure (⟨ctx.module.name, a.2.name, []⟩ : Symbol)) (pure ⟨m'.name, a.2.name, []⟩)
      rw [C.heads.name]
      exact holds_pure
    exact hsym.bind fun symbol => hargs.callFunction
  | generic name typeArgs =>
    refine C.bindRelated (holds_findDeclaration name) fun a a' ⟨hd, hd', hplace, _⟩ => ?_
    obtain ⟨_, d⟩ := a
    obtain ⟨_, _⟩ := a'
    cases hplace
    exact (C.request hd hd' typeArgs).bind fun symbol => hargs.callFunction
  | unknown => exact C.stop _

/-! ## Expressions -/

theorem holds_lowerBinary :
    C.Holds Eq (lowerBinary ctx sign operator type lhs rhs site)
      (lowerBinary (ctx.within m') sign operator type lhs rhs site) := by
  refine .ite (holds_check.bind fun _ => holds_unsupported.bind fun _ => ?_) ?_ <;>
  refine .ite (holds_check.bind fun _ => holds_check.bind fun _ => holds_unsupported.bind fun _ => ?_) ?_ <;>
  exact holds_fill

theorem holds_lowerComparison {comparison lhs rhs site} :
    C.Holds Eq (lowerComparison ctx comparison lhs rhs site)
      (lowerComparison (ctx.within m') comparison lhs rhs site) := by
  refine .ite (holds_check.bind fun _ => holds_check.bind fun _ => holds_unsupported.bind fun _ => ?_) ?_ <;>
  refine .ite (holds_unsupported.bind fun _ => ?_) ?_ <;>
  exact holds_fill

theorem holds_lowerConversion :
    C.Holds Eq (lowerConversion ctx source type site) (lowerConversion (ctx.within m') source type site) := by
  refine .ite (holds_check.bind fun _ => holds_check.bind fun _ => holds_unsupported.bind fun _ => ?_) ?_ <;>
  refine holds_allocate.bind fun _ => .ite (holds_emit.bind fun _ => holds_pure)
    (holds_check.bind fun _ => holds_check.bind fun _ => holds_emit.bind fun _ => holds_pure)

mutual

theorem holds_lowerExpression : ∀ e,
    C.Holds Eq (lowerExpression ctx e) (lowerExpression (ctx.within m') e)
  | .number .. => by
    refine holds_resolveScalar.bind fun _ => .ite (holds_check.bind fun _ => holds_unsupported.bind fun _ => ?_) ?_ <;>
    exact holds_allocate.bind fun _ => holds_check.bind fun _ => holds_emit.bind fun _ => holds_pure
  | .boolean .. => holds_fill
  | .string .. => C.bindRelated (C.place _) fun _ _ _ => holds_fill
  | .identifier .. => holds_findVariable.bind fun _ => holds_fill
  | .global .. =>
    holds_findGlobal.bind fun _ => holds_resolveScalar.bind fun _ => holds_globalAddress.bind fun _ => holds_fill
  | .binary sign left right .. => by
    rw [lowerExpression, lowerExpression]
    cases Operator.ofSymbol? sign with
    | none => exact holds_unsupported
    | some =>
      exact holds_resolveScalar.bind fun _ => (holds_lowerExpression left).bind fun _ =>
        (holds_lowerExpression right).bind fun _ => holds_lowerBinary
  | .comparison _ left right _ =>
    (holds_lowerExpression left).bind fun _ => (holds_lowerExpression right).bind fun _ => holds_lowerComparison
  | .not operand _ => (holds_lowerExpression operand).bind fun _ => holds_fill
  | .call _ args .. => by
    refine (holds_lowerArguments args).lowerCall.bind fun reg => ?_
    cases reg with
    | some => exact holds_pure
    | none => exact holds_unsupported
  | .index _ index .. => (holds_lowerExpression index).elementAddress.bind fun _ => holds_fill
  | .addressOf .. => holds_findGlobal.bind fun _ => holds_globalAddress
  | .dereference ptr .. => holds_resolveScalar.bind fun _ => (holds_lowerExpression ptr).bind fun _ => holds_fill
  | .convert operand .. =>
    holds_resolveScalar.bind fun _ => (holds_lowerExpression operand).bind fun _ => holds_lowerConversion
  | .ternary cond whenTrue whenFalse .. =>
    holds_resolveScalar.bind fun _ => holds_allocate.bind fun _ => holds_makeLabel.bind fun _ =>
      holds_makeLabel.bind fun _ => (holds_lowerExpression cond).bind fun _ => holds_emit.bind fun _ =>
      (holds_lowerExpression whenTrue).bind fun _ => holds_emit.bind fun _ => holds_emit.bind fun _ =>
      holds_emit.bind fun _ => (holds_lowerExpression whenFalse).bind fun _ => holds_emit.bind fun _ =>
      holds_emit.bind fun _ => holds_pure
  | .unknown .. => holds_unsupported

theorem holds_lowerArguments : ∀ args,
    C.Holds Eq (lowerArguments ctx args) (lowerArguments (ctx.within m') args)
  | [] => holds_pure
  | arg :: rest => (holds_lowerExpression arg).bind fun _ => (holds_lowerArguments rest).bind fun _ => holds_pure

end

/-! ## Statements and functions -/

theorem holds_declareVariable :
    C.Holds Eq (declareVariable ctx name type site) (declareVariable (ctx.within m') name type site) := by
  refine holds_resolveScalar.bind fun _ => holds_allocate.bind fun _ => holds_bindName.bind fun _ =>
    Holds.bind (C.change ?_) fun _ => holds_pure
  exact fun _ _ h => { h with locals := by rw [h.locals] }

theorem holds_lowerStep : C.Holds Eq (lowerStep ctx dir name site) (lowerStep (ctx.within m') dir name site) := by
  refine holds_findVariable.bind fun reg => .ite (holds_check.bind fun _ => holds_unsupported.bind fun _ => ?_) ?_ <;>
  exact holds_emit

theorem holds_lowerAssignment :
    C.Holds Eq (lowerAssignment ctx target value site) (lowerAssignment (ctx.within m') target value site) := by
  have hvalue := holds_lowerExpression (C := C) value
  match target with
  | .variable name => exact hvalue.bind fun _ => holds_findVariable.bind fun _ => holds_emit
  | .global name =>
    exact holds_findGlobal.bind fun _ => holds_resolveScalar.bind fun _ => hvalue.bind fun _ =>
      holds_globalAddress.bind fun _ => holds_emit
  | .index array index =>
    exact (holds_lowerExpression index).elementAddress.bind fun _ => hvalue.bind fun _ => holds_emit
  | .dereference ptr => exact (holds_lowerExpression ptr).bind fun _ => hvalue.bind fun _ => holds_emit
  | .unknown node => exact C.stop _

theorem holds_lowerForHead :
    C.Holds Eq (lowerForHead ctx name type first limit site)
      (lowerForHead (ctx.within m') name type first limit site) := by
  refine (holds_lowerExpression first).bind fun _ => (holds_lowerExpression limit).bind fun _ =>
    holds_declareVariable.bind fun _ => .ite (holds_check.bind fun _ => holds_unsupported.bind fun _ => ?_) ?_ <;>
  exact holds_emit.bind fun _ => holds_makeLabel.bind fun _ => holds_makeLabel.bind fun _ => holds_emit.bind fun _ =>
    holds_allocate.bind fun _ => holds_emit.bind fun _ => holds_allocate.bind fun _ => holds_emit.bind fun _ =>
    holds_emit.bind fun _ => holds_pure

mutual

theorem holds_lowerStatement : ∀ stmt,
    C.Holds Eq (lowerStatement ctx stmt) (lowerStatement (ctx.within m') stmt)
  | .declaration _ _ (some _) _ =>
    (holds_lowerExpression _).bind fun _ => holds_declareVariable.bind fun _ => holds_emit
  | .declaration _ _ none _ => holds_declareVariable.bind fun _ => holds_emit
  | .assignment .. => holds_lowerAssignment
  | .increment .. => holds_lowerStep
  | .decrement .. => holds_lowerStep
  | .expression value _ => by
    cases value with
    | call _ args =>
      rw [lowerStatement, lowerStatement]
      exact (holds_lowerArguments args).lowerCall.bind fun _ => holds_pure
    | _ =>
      simp only [lowerStatement]
      exact (holds_lowerExpression _).bind fun _ => holds_pure
  | .ret (some _) _ => (holds_lowerExpression _).bind fun _ => holds_emit
  | .ret none _ => holds_emit
  | .conditional _ whenTrue whenFalse _ => by
    rw [lowerStatement, lowerStatement]
    refine holds_makeLabel.bind fun _ => holds_makeLabel.bind fun _ => (holds_lowerExpression _).bind fun _ =>
      holds_emit.bind fun _ => (holds_lowerStatements whenTrue).inScope.bind fun _ => holds_emit.bind fun _ =>
      holds_emit.bind fun _ => ?_
    cases whenFalse with
    | none => exact holds_emit
    | some stmts => exact (holds_lowerStatements stmts).inScope.bind fun _ => holds_emit
  | .whileLoop _ body _ =>
    holds_makeLabel.bind fun _ => holds_makeLabel.bind fun _ => holds_emit.bind fun _ =>
      (holds_lowerExpression _).bind fun _ => holds_emit.bind fun _ =>
      (holds_lowerStatements body).inScope.bind fun _ => holds_emit.bind fun _ => holds_emit
  | .forLoop _ _ _ _ body _ =>
    (holds_lowerForHead.bind fun _ => (holds_lowerStatements body).inScope.bind fun _ => holds_emit.bind fun _ =>
      holds_emit.bind fun _ => holds_emit).inScope
  | .unknown _ => holds_unsupported

theorem holds_lowerStatements : ∀ stmts,
    C.Holds Eq (lowerStatements ctx stmts) (lowerStatements (ctx.within m') stmts)
  | [] => holds_pure
  | stmt :: rest => (holds_lowerStatement stmt).bind fun _ => holds_lowerStatements rest

end

theorem holds_lowerParameters : C.Holds Eq (lowerParameters ctx params) (lowerParameters (ctx.within m') params) := by
  induction params with
  | nil => exact holds_pure
  | cons p _ ih =>
    exact holds_resolveScalar.bind fun _ => holds_allocate.bind fun _ => holds_bindName.bind fun _ => ih.bind fun _ =>
      holds_pure

/-- What functions come to is not compared: of their instructions nothing is known. -/
theorem holds_lowerFunction (C : Congruence ctx m') (symbol : Symbol) :
    C.Holds (fun _ _ => True) (lowerFunction ctx symbol) (lowerFunction (ctx.within m') symbol) := by
  refine holds_lowerParameters.bind fun _ => holds_check.bind fun _ =>
    .ite (holds_resolveScalar.bind fun _ => ?_) ?_ <;>
  refine (holds_lowerStatements _).inScope.bind fun _ => C.bindRelated C.draft fun _ _ _ =>
    Holds.afterEmit ?_ _ _ _ _ <;>
  exact C.bindRelated C.draft fun _ _ _ => C.related trivial

end

end Congruence

end Lower

end Retarget
