import Retarget.Proofs.Meaning.Statement

/-!
# Functions

A machine that enters the procedure of a function finds the parameters in their homes, and follows the body to where
it returns. A function that returns nothing may also come to the end of its body, where lowering has put a return;
unless the body ends with one itself, and then its end is never come to.
-/
namespace Retarget

open List Machine

open Source (Store Reason Eval Flow Locals Evaluator)

/-! ## Code that ends with a return -/

/-- The code has a last operation, and that is no return. -/
def CodeTree.EndsOpen (code : CodeTree) : Prop :=
  ∃ operation, code.operations.getLast? = some operation ∧ ∀ r, operation ≠ .ret r

namespace CodeTree.EndsOpen

theorem plain (h : ∀ r, op ≠ .ret r) : (plain op).EndsOpen :=
  ⟨op, rfl, h⟩

theorem append (before : CodeTree) {code} (h : code.EndsOpen) : (before ++ code).EndsOpen := by
  obtain ⟨op, hlast, hopen⟩ := h
  exact ⟨op, by rw [operations_append, getLast?_append, hlast, Option.some_or], hopen⟩

theorem branch (test : Register) (elseLabel endLabel : String) (whenTrue whenFalse : CodeTree) :
    (branch test elseLabel endLabel whenTrue whenFalse).EndsOpen :=
  ⟨.label endLabel, by simp [operations, getLast?_append, getLast?_cons], nofun⟩

theorem loop (header exit : String) (cond : CodeTree) (test : Register) (body : CodeTree) :
    (loop header exit cond test body).EndsOpen :=
  ⟨.label exit, by simp [operations, getLast?_append, getLast?_cons], nofun⟩

end CodeTree.EndsOpen

namespace Lower

section
variable {ctx : Context} {s t : State} {code : CodeTree}

theorem LowersCall.endsOpen {arguments type callee result} (h : LowersCall ctx arguments type callee s result code t) :
    code.EndsOpen := by
  cases h with
  | routine | procedure | function => exact .append _ (.plain nofun)

theorem LowersExpression.endsOpen {e r} (h : LowersExpression ctx e s r code t) : code.EndsOpen := by
  cases h with
  | call lower => exact lower.endsOpen
  | ternary =>
    exact .append _ (.branch ..)
  | number | boolean | string | identifier | addressOf => exact .plain nofun
  | global | binary | comparison | not | index | dereference | keep | convert => exact .append _ (.plain nofun)

/-- Only a return is lowered to code that ends with one. -/
theorem LowersStatement.endsOpen {statement} (h : LowersStatement ctx statement s code t) :
    code.EndsOpen ∨ ∃ value site, statement = .ret value site := by
  cases h with
  | ret | retNone => exact Or.inr ⟨_, _, rfl⟩
  | call lower | expression _ lower => exact Or.inl lower.endsOpen
  | assignment lower => cases lower <;> exact Or.inl (.append _ (.plain nofun))
  | initialized => exact Or.inl (.append _ (.plain nofun))
  | zeroed | increment | decrement => exact Or.inl (.plain nofun)
  | conditional => exact Or.inl (.append _ (.branch ..))
  | whileLoop => exact Or.inl (.loop ..)
  | forLoop => exact Or.inl (.append _ (.loop ..))

theorem LowersStatements.ends (h : LowersStatements ctx stmts s code t) :
    (stmts = [] ∧ code.operations = []) ∨ code.EndsOpen ∨
      ∃ before value site, stmts = before ++ [.ret value site] := by
  induction stmts generalizing s code with
  | nil =>
    cases h
    exact Or.inl ⟨rfl, rfl⟩
  | cons stmt _ ih =>
    cases h with
    | @cons _ _ _ _ _ _ _ first remaining =>
      rcases ih remaining with ⟨rfl, hempty⟩ | hopen | ⟨before, value, site, rfl⟩
      · rcases first.endsOpen with ⟨op, hlast, hopen⟩ | ⟨value, site, rfl⟩
        · refine Or.inr (Or.inl ⟨op, ?_, hopen⟩)
          rw [CodeTree.operations_append, hempty, append_nil, hlast]
        · exact Or.inr (Or.inr ⟨[], value, site, rfl⟩)
      · exact Or.inr (Or.inl (.append _ hopen))
      · exact Or.inr (Or.inr ⟨stmt :: before, value, site, rfl⟩)

end

end Lower

/-- What ends with a return does not go on behind it. -/
theorem Source.Evaluator.executeAll_ret_ne_goesOn (E : Evaluator) (before : List Statement) (value : Option Expression)
    (site : Option Location) (locals locals' : Locals) (store after : Store) :
    (E.executeAll locals (before ++ [.ret value site])).result store ≠ (.ok (.goesOn locals'), after) := by
  induction before generalizing locals store with
  | nil =>
    rw [nil_append, executeAll, Eval.result_bind]
    cases value with
    | none => rw [execute]; nofun
    | some value =>
      rw [execute, Eval.result_bind]
      rcases (E.evaluate locals value).result store with ⟨_ | given, _⟩
      · nofun
      · dsimp only
        rw [Eval.result_bind, Eval.result_of]
        cases demand E.function.symbol given <;> nofun
  | cons stmt _ ih =>
    rw [cons_append, executeAll, Eval.result_bind]
    rcases (E.execute locals stmt).result store with ⟨_ | ⟨locals | _⟩, store⟩
    · nofun
    · exact ih locals store
    · nofun

namespace Lower

/-! ## Parameters -/

/-- The homes of parameters, in front of those that there are. The last parameter comes first. -/
def parameterHomes : List Source.Parameter → List Parameter → List Home → List Home
  | p :: rest, q :: others, homes => parameterHomes rest others (⟨p.name, p.type, q.register⟩ :: homes)
  | _, _, homes => homes

section
variable {ctx : Context} {s t : State} {declared : List Source.Parameter} {parameters : List Parameter}
  {homes : List Home}

section
variable (h : LowersParameters ctx declared s params t)
include h

theorem LowersParameters.length_eq :
    params.length = declared.length := by
  induction h with
  | nil => rfl
  | cons _ _ _ ih => exact congrArg (· + 1) ih

theorem LowersParameters.entries :
    (parameterHomes declared params homes).map Home.entry =
      (declared.map fun p => (p.name, p.type)).reverse ++ homes.map Home.entry := by
  induction h generalizing homes with
  | nil => rfl
  | cons _ _ _ ih =>
    rw [parameterHomes, ih]
    simp [Home.entry]

theorem LowersParameters.ids :
    (parameterHomes declared params homes).map (·.register.id) =
      (params.map (·.register.id)).reverse ++ homes.map (·.register.id) := by
  induction h generalizing homes with
  | nil => rfl
  | cons _ _ _ ih =>
    rw [parameterHomes, ih]
    simp

theorem LowersParameters.housed (hs : s.Sound ctx)
    (hhoused : Housed ctx homes s) : Housed ctx (parameterHomes declared params homes) t := by
  induction h generalizing homes with
  | nil => exact hhoused
  | @cons p _ s t scalar _ resolved _ _ ih =>
    exact ih ((hs.allocated scalar).bound (s.fresh_mem_allocated scalar) p.name) (hhoused.declared hs resolved rfl rfl)

end

/-- Values that are there in the registers of the parameters are those of the variables that are bound to them. -/
theorem LowersParameters.held {p E final f} (S : Setting p E ctx final f)
    (h : LowersParameters ctx declared s parameters t) {locals registers values} (hheld : Held homes locals registers)
    (hvalues : Forall₂ (fun q v => registers.get? q.register.id = some v) parameters values) :
    ∃ locals', E.enter declared values locals = pure locals' ∧
      Held (parameterHomes declared parameters homes) locals' registers := by
  induction h generalizing homes locals values with
  | nil =>
    cases hvalues
    exact ⟨locals, rfl, hheld⟩
  | cons resolved _ _ ih =>
    obtain ⟨v, _, hv, hothers, rfl⟩ := forall₂_cons_left_iff.mp hvalues
    rw [Evaluator.enter, S.resolve_bind resolved]
    exact ih (.cons ⟨rfl, rfl, hv⟩ hheld) hothers

end

/-- A procedure starts with the values in the registers of its parameters. -/
theorem activation_get? {f : Procedure} {values} (hdistinct : f.parameterIds.Nodup)
    (hlen : values.length = f.parameters.length) :
    Forall₂ (fun q v => (f.activation values).registers.get? q.register.id = some v) f.parameters values := by
  refine forall₂_iff_zip.mpr ⟨hlen.symm, fun {q v} hmem => Assoc.get?_ofPairs ?_ ?_⟩
  · rwa [map_fst_zip (by rw [Procedure.parameterIds, length_map, hlen])]
  · rw [Procedure.parameterIds, zip_map_left]
    exact mem_map_of_mem (f := Prod.map _ id) hmem

/-! ## Functions -/

section
variable {p : Program} {E : Evaluator} {ctx : Context} {final shared : Shared} {f : Procedure} {t : State}
  {code : CodeTree}

/-- Behind the last operation the run ends. -/
theorem Setting.runsPast {α : Type} {Post : α → Store → Machine → Prop} {callers place fuel store} {m : Machine}
    (S : Setting p E ctx final f) (hm : m.Stands f callers place store) (hplace : f.instructions.length ≤ place) :
    m.Follows p strict fuel Post ((do throw (.stopped (.failure (.ranPast (← Eval.check E.function.symbol.text))))
      : Eval α).result store) := by
  have hnext : m.next? = none := by
    show m.active.procedure.instructions[m.active.position]? = none
    rw [hm.procedure, hm.position]
    exact getElem?_eq_none hplace
  obtain ⟨w, hend, hprinted⟩ := advance_of_stops (p := p) (reaction_of_past hnext)
  have hw : w.output = store.output := by
    rw [World.output, hprinted, ← hm.output]
    rfl
  rw [Activation.past, S.symbol_eq hm] at hend
  cases htext : E.function.symbol.text with
  | ok | error =>
    rw [htext] at hend
    exact fun _ => Or.inr ⟨0, m, w, _, .refl m, hend, rfl, hw⟩

theorem LowersFunction.has (h : LowersFunction ctx symbol ⟨shared, .empty⟩ f code t) : f.Has 0 code.operations :=
  ⟨[], by rw [append_nil, h.operations_eq, drop_zero]⟩

theorem Closes.has (h : Closes returnType s code code' t)
    (hhas : f.Has place code'.operations) : f.Has place code.operations := by
  cases h with
  | added => exact hhas.first
  | kept => exact hhas

/-- The end of a body is come to only where a return was added, or where a value is to be returned. -/
theorem Closes.finishes (S : Setting p E ctx final f)
    {symbol returnType stmts s u v body callers fuel locals locals'} {store after : Store} {n : Machine}
    (hcloses : Closes returnType v body code t) (h : LowersFunction ctx symbol ⟨shared, .empty⟩ f code t)
    (hbody : LowersStatements ctx stmts s body u) (hn : n.Stands f callers body.size after)
    (hresult : (E.executeAll locals stmts).result store = (.ok (.goesOn locals'), after)) :
    n.Follows p strict fuel (fun v after n => n.Returning callers v after)
      ((E.finish returnType (.goesOn locals')).result after) := by
  unfold Evaluator.finish
  by_cases hvoid : returnType = .void
  · rw [if_pos hvoid]
    obtain ⟨i, r, hlast, hret⟩ := hcloses.returns hvoid
    have hends : code.operations.getLast? = some (.ret r) := by
      rw [← h.operations_eq, getLast?_map, h.lays.1, hlast, ← hret]
      rfl
    cases hcloses with
    | added => exact .done (hn.returns_nothing (h.has.second.at_place (Nat.zero_add _)))
    | kept =>
      rcases hbody.ends with ⟨-, hempty⟩ | ⟨_, hopen, hne⟩ | ⟨_, _, _, rfl⟩
      · rw [hempty] at hends
        cases hends
      · exact absurd (Option.some.inj (hopen.symm.trans hends)) (hne r)
      · exact absurd hresult (E.executeAll_ret_ne_goesOn _ _ _ _ _ _ _)
  · rw [if_neg hvoid]
    cases hcloses with
    | added needs => simp [needsReturn, hvoid] at needs
    | kept =>
      refine S.runsPast hn (Nat.le_of_eq ?_)
      rw [CodeTree.size, ← h.operations_eq, length_map]

theorem Setting.run_eq (S : Setting p E ctx final f) {values}
    (hlen : values.length = E.function.declaration.parameters.length)
    (hreturn : E.function.declaration.returnType.substitute ctx.bindings = .ok returnType)
    (henter : E.enter E.function.declaration.parameters values [] = pure locals) :
    E.run values = E.executeAll locals E.function.declaration.body >>= E.finish returnType := by
  unfold Evaluator.run
  dsimp only
  rw [if_neg (not_not_intro hlen), S.resolve_bind hreturn, henter, pure_bind]

/-- A function refuses too few values, and too many. -/
theorem Setting.refuses (S : Setting p E ctx final f)
    (hcount : f.parameters.length = E.function.declaration.parameters.length) {values}
    (hlen : values.length ≠ f.parameters.length) (store : Store) :
    ∃ halt, (E.run values).result store = (.error halt, store) ∧ halt.Reported (wrongArity f values) := by
  have hrun : E.run values = (do throw (.stopped (.failure (.wrongArity (← Eval.check f.symbol.text)
      f.parameters.length values.length)))) := by
    unfold Evaluator.run
    dsimp only
    rw [if_pos (hcount ▸ hlen), S.symbol, hcount]
    rfl
  rw [hrun, wrongArity]
  cases f.symbol.text <;> exact ⟨_, rfl, rfl⟩

theorem LowersFunction.parts (h : LowersFunction ctx symbol s f code t) :
    ∃ u v returnType body, LowersParameters ctx ctx.declaration.parameters s f.parameters u ∧
      ctx.declaration.returnType.substitute ctx.bindings = .ok returnType ∧
      LowersStatements ctx ctx.declaration.body u body v ∧ Closes returnType (v.rescoped u) body code t := by
  cases h with
  | function lowerParameters resolved _ lowerBody closes =>
    exact ⟨_, _, _, _, lowerParameters, resolved, lowerBody, closes⟩

/-- The procedure of a function answers as the function does. -/
theorem LowersFunction.answers (S : Setting p E ctx final f) {symbol}
    (h : LowersFunction ctx symbol ⟨shared, .empty⟩ f code t) (hshared : shared.Sound ctx.module)
    (hgrows : t.shared.Grows final) (hdeclaration : ctx.declaration = E.function.declaration)
    (hresolved : Source.blockResolved E.module ctx.declaration.scope ctx.declaration.body = true) :
    f.Answers p E.strict (E.fuel + 1) E.run := by
  obtain ⟨u, v, _, _, hparameters, hreturn, hbody, hcloses⟩ := h.parts
  rw [hdeclaration] at hparameters hreturn hbody hresolved
  have hs : State.Sound ctx ⟨shared, .empty⟩ := State.sound_empty hshared
  refine ⟨fun {m values callers store} hm hactive hlength => ?_, fun store hlength => ?_⟩
  · -- The parameters have homes of their own, so each of them holds its value.
    have hhoused : Housed ctx (parameterHomes E.function.declaration.parameters f.parameters []) u :=
      hparameters.housed hs ⟨fun _ => rfl, nofun, .nil, nofun⟩
    have hdistinct : f.parameterIds.Nodup := by
      have hids := hhoused.distinct
      rwa [hparameters.ids, map_nil, append_nil, nodup_reverse] at hids
    obtain ⟨_, henter, hheld⟩ := hparameters.held S .nil (activation_get? hdistinct hlength)
    obtain ⟨hu, -, -⟩ := hparameters.sound hs
    obtain ⟨hv, huv⟩ := hbody.sound hu
    have hclosed := (hcloses.sound (hv.rescoped hu huv)).2
    have hentries : Source.blockResolved E.module
        ((parameterHomes E.function.declaration.parameters f.parameters []).map Home.entry)
        E.function.declaration.body = true := by
      rwa [hparameters.entries, map_nil, append_nil]
    have hruns := hbody.runs S hu (hclosed.shared.grows.trans hgrows) hentries (hcloses.has h.has)
      ⟨hu, hhoused, hactive ▸ hheld, hm⟩
    rw [S.run_eq (hlength.trans hparameters.length_eq) hreturn henter]
    refine hruns.known.bind fun {flow after n} hn => ?_
    obtain ⟨hresult, hn⟩ := hn
    cases flow with
    | returns => exact .done hn
    | goesOn => exact hcloses.finishes S h hbody (hn.1.at_place (Nat.zero_add _)) hresult
  · obtain ⟨halt, hresult, hreported⟩ := S.refuses hparameters.length_eq hlength store
    exact ⟨halt, hresult, Or.inr hreported⟩

end

end Lower

end Retarget
