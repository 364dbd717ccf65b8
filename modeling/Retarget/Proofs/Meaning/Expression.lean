import Retarget.Proofs.Meaning.Control
import Retarget.Proofs.Meaning.Resolution

/-!
# Expressions

Behind the code of an expression the register that lowering gives for it holds the expression's value, and every
register that was taken before holds what it held. Variables are found in their homes, by the names in scope. So a
machine follows the evaluation of an expression, from its first operand to its last operation.
-/
namespace Retarget.Lower

open Bool List Source Source.Evaluator

open Machine (Keeps Wrote)

/-- A procedure of a program is that of the function which is evaluated, with what both may look up. -/
structure Setting (p : Program) (E : Evaluator) (ctx : Context) (final : Shared) (f : Procedure) : Prop where
  assembled : p.Assembled E.module final
  resolved : E.module.IsResolved
  strings : E.strings = final.pool
  module : ctx.module = E.module
  globals : ctx.globals = E.module.globals.map (·.lower E.module.name)
  bindings : ctx.bindings = E.function.bindings
  concrete : ∀ name bound, ctx.bindings.get? name = some bound → bound.IsConcrete
  symbol : E.function.symbol = f.symbol
  labels : (f.instructions.filterMap (·.operation.labelName?)).Nodup
  answers : ∀ function g, E.module.Offers function → p.find? function.symbol = some g →
    g.Answers p E.strict E.fuel (E.call function)

/-! ## Homes of variables -/

/-- A variable in scope, the type that it is declared with and the register that holds it. -/
structure Home where
  name : String
  declared : Ty
  register : Register

def Home.entry (home : Home) : String × Ty := (home.name, home.declared)

theorem type?_entries (homes : List Home) (name : String) :
    Scope.type? (homes.map Home.entry) name = (homes.find? (·.name == name)).map (·.declared) := by
  rw [Scope.type?, find?_map, Option.map_map]
  rfl

/-- The names in scope have these homes, the innermost first, and every home is a register of its own. -/
structure Housed (ctx : Context) (homes : List Home) (s : State) : Prop where
  scope : ∀ name, s.draft.scope.get? name = (homes.find? (·.name == name)).map (·.register)
  registers : ∀ home ∈ homes, home.register ∈ s.draft.registers
  distinct : (homes.map (·.register.id)).Nodup
  types : ∀ home ∈ homes, home.declared.substitute ctx.bindings = .ok home.register.type

/-- The homes hold the variables. -/
def Held (homes : List Home) (locals : Locals) (registers : Assoc Numeral Value) : Prop :=
  List.Forall₂ (fun home x => x.name = home.name ∧ x.type = home.register.type ∧
    registers.get? home.register.id = some x.value) homes locals

variable {p : Program} {E : Evaluator} {ctx : Context} {final : Shared} {f : Procedure} {callers : List Suspended}
  {homes : List Home} {locals : Locals}

section
variable {s t : State} {registers registers' : Assoc Numeral Value} {name : String}

theorem Housed.grown (h : Housed ctx homes s) (hgrows : s.Grows t) (hscope : t.draft.scope = s.draft.scope) :
    Housed ctx homes t :=
  { h with
    scope := fun name => by rw [hscope, h.scope]
    registers := fun home hhome => hgrows.mem (h.registers home hhome) }

theorem Housed.home (h : Housed ctx homes s) (hbound : s.draft.scope.get? name = some r) :
    ∃ home, homes.find? (·.name == name) = some home ∧ home.register = r :=
  Option.map_eq_some_iff.mp ((h.scope name).symm.trans hbound)

theorem Held.lookup (h : Held homes locals regs) (hfound : homes.find? (·.name == name) = some home) :
    ∃ x, locals.lookup? name = some x ∧ x.type = home.register.type ∧
      regs.get? home.register.id = some x.value := by
  induction h with
  | nil => cases hfound
  | @cons first x _ _ hfirst _ ih =>
    rw [Locals.lookup?, find?_cons, hfirst.1]
    rw [find?_cons] at hfound
    cases hname : first.name == name with
    | true =>
      rw [hname] at hfound
      cases hfound
      exact ⟨x, rfl, hfirst.2⟩
    | false =>
      rw [hname] at hfound
      exact ih hfound

theorem Held.kept (h : Held homes locals registers)
    (hkept : ∀ home ∈ homes, registers'.get? home.register.id = registers.get? home.register.id) :
    Held homes locals registers' := by
  induction h with
  | nil => exact .nil
  | cons hfirst _ ih =>
    obtain ⟨hhome, hrest⟩ := forall_mem_cons.mp hkept
    exact .cons ⟨hfirst.1, hfirst.2.1, hhome.trans hfirst.2.2⟩ (ih hrest)

end

/-! ## Names -/

namespace Setting

variable {β : Type} {name : String} {g : GlobalVariable} (S : Setting p E ctx final f)
include S

theorem resolve_bind {type} (h : type.substitute ctx.bindings = .ok scalar) (k : Ty → Eval β) :
    (E.resolve type >>= k) = k scalar :=
  Eval.check_bind (S.bindings ▸ h) k

section
variable (h : ctx.globals.find? (·.name == name) = some g)
include h

/-- A global variable is lowered from the declaration of its name. -/
theorem global_eq :
    ∃ declared, E.module.global? name = some declared ∧ g = declared.lower E.module.name := by
  rw [S.globals, find?_map] at h
  obtain ⟨declared, hdeclared, rfl⟩ := Option.map_eq_some_iff.mp h
  exact ⟨declared, hdeclared, rfl⟩

theorem globalType?_eq : E.module.globalType? name = some g.type := by
  obtain ⟨_, hdeclared, rfl⟩ := S.global_eq h
  rw [Module.globalType?, hdeclared]
  rfl

theorem global_isConcrete : g.type.IsConcrete := by
  obtain ⟨declared, hdeclared, rfl⟩ := S.global_eq h
  exact S.resolved.globals declared (mem_of_find?_eq_some hdeclared)

theorem block_bind (k : String → Eval β) :
    (E.block name >>= k) = k (DataSymbol.global g.module g.name).text := by
  obtain ⟨_, hdeclared, rfl⟩ := S.global_eq h
  rw [block, hdeclared]
  rfl

end

/-- The place of a string in the pool does not change when the pool grows. -/
theorem literal_bind {shared : Shared} (hplace : shared.pool.findIdx? (· == value) = some index)
    (hgrows : shared.Grows final) (k : Value → Eval β) :
    (E.literal value >>= k) = k (.pointer (DataSymbol.literal (.natural index)).text 0) := by
  obtain ⟨_, hrest⟩ := hgrows.pool
  have hindex : E.strings.findIdx? (· == value) = some index := by
    rw [S.strings, ← hrest, findIdx?_append, hplace]
    rfl
  rw [literal, hindex]
  rfl

theorem symbol_eq {m : Machine} (hm : m.Stands f callers place store) : m.active.procedure.symbol = E.function.symbol :=
  (congrArg Procedure.symbol hm.procedure).trans S.symbol.symm

/-- There is a procedure for what a callee stands for, and it answers as the function does. -/
theorem callee {callee symbol s t} (h : Resolves ctx s callee symbol t) (hs : s.Sound ctx)
    (hgrows : t.shared.Grows final) :
    ∃ function proc, E.module.function E.function.bindings callee = .ok function ∧ function.symbol = symbol ∧
      p.find? symbol = some proc ∧ proc.Answers p E.strict E.fuel (E.call function) := by
  obtain ⟨function, hfunction, rfl, hoffers⟩ := h.function_eq hs S.concrete
  obtain ⟨proc, hfound⟩ := S.assembled.callable S.module (Callable.mono hgrows (hs.resolved h).2)
  rw [S.module, S.bindings] at hfunction
  rw [S.module] at hoffers
  exact ⟨function, proc, hfunction, rfl, hfound, S.answers function proc hoffers hfound⟩

/-- A call of a function, in two parts: what the function returns, and what the caller makes of it. -/
theorem invoke_eq {callee function type returned}
    (hfunction : E.module.function E.function.bindings callee = .ok function)
    (htype : type.substitute ctx.bindings = .ok returned) (given : List (Option Value)) :
    E.invoke callee given type = (Eval.of (given.mapM (demand f.symbol)) >>= E.call function) >>=
      Eval.received function.symbol returned := by
  have hinvoke : E.invoke callee given type = (do
      let f ← .check (E.module.function E.function.bindings callee)
      let type ← E.resolve type
      let values ← .of (given.mapM (demand E.function.symbol))
      let returned ← E.call f values
      Eval.received f.symbol type returned) := by
    cases callee with
    | routine => cases hfunction
    | _ => rfl
  rw [hinvoke, Eval.check_bind hfunction, S.resolve_bind htype, S.symbol, bind_assoc]

/-- The register of an expression has the expression's type. -/
theorem typeOf_bind (h : LowersExpression ctx e s r code t) (hhoused : Housed ctx homes s)
    (hres : e.isResolved E.module (homes.map Home.entry) = true) (k : Ty → Eval β) :
    (E.typeOf e >>= k) = k r.type := by
  have htyped : ∃ type, e.type? = some type ∧ type.substitute ctx.bindings = .ok r.type := by
    cases h with
    | boolean | string | comparison | not => exact ⟨_, rfl, rfl⟩
    | number resolved | binary _ resolved | dereference resolved | keep resolved | convert resolved =>
      exact ⟨_, rfl, resolved⟩
    | ternary resolved _ isResult =>
      exact ⟨_, rfl, isResult ▸ resolved⟩
    | identifier bound =>
      obtain ⟨home, hfound, rfl⟩ := hhoused.home bound
      have htype := beq_iff_eq.mp hres
      rw [type?_entries, hfound] at htype
      cases htype
      exact ⟨_, rfl, hhoused.types home (mem_of_find?_eq_some hfound)⟩
    | global found resolved =>
      have htype := beq_iff_eq.mp hres
      rw [S.globalType?_eq found] at htype
      cases htype
      exact ⟨_, rfl, resolved⟩
    | @addressOf _ _ _ _ g _ found =>
      have htype := beq_iff_eq.mp hres
      rw [S.globalType?_eq found] at htype
      cases htype
      have hconcrete : (Ty.pointer g.type).IsConcrete := S.global_isConcrete found
      exact ⟨_, rfl, hconcrete.substitute_eq⟩
    | index lower =>
      cases lower with
      | element found array resolved =>
        have htype := beq_iff_eq.mp (and_eq_true_iff.mp hres).1
        rw [Module.elementType?, S.globalType?_eq found, array] at htype
        cases htype
        exact ⟨_, rfl, resolved⟩
    | call lower =>
      cases lower with
      | function _ _ substituted _ resolved =>
        -- The type is substituted twice, but nothing is left for the second time.
        have hconcrete := Ty.isConcrete_of_substitute S.concrete substituted
        rw [hconcrete.substitute_eq] at resolved
        cases resolved
        exact ⟨_, rfl, substituted⟩
  obtain ⟨_, htype, hsubstitute⟩ := htyped
  rw [typeOf, htype]
  exact S.resolve_bind hsubstitute k

end Setting

/-! ## Values in registers -/

@[simp] theorem State.size_computes (s : State) (type : Ty) (op : Register → Operation) :
    (s.computes type op).size = 1 := rfl

/-- The machine is where lowering has come to: it is at a place of the procedure, and the homes of the variables in
scope hold them. -/
structure Ready (ctx : Context) (f : Procedure) (callers : List Suspended) (homes : List Home) (locals : Locals)
    (s : State) (place : Nat) (store : Store) (m : Machine) : Prop where
  sound : s.Sound ctx
  housed : Housed ctx homes s
  held : Held homes locals m.active.registers
  stands : m.Stands f callers place store

/-- The machine has come to a place with a value in a register, and no register of before is changed. -/
structure Gives (f : Procedure) (callers : List Suspended) (s : State) (r : Register) (place : Nat)
    (before : Assoc Numeral Value) (v : Option Value) (after : Store) (n : Machine) : Prop where
  stands : n.Stands f callers place after
  value : n.active.registers.get? r.id = v
  keeps : Keeps (· ∈ s.draft.registers) before n.active.registers

section
variable {strict : Bool} {fuel : Nat} {s t u : State} {place : Nat} {store : Store} {m n : Machine}

/-- Lowering and the machine have gone on, and the names in scope are still the same. -/
theorem Ready.moved (h : Ready ctx f callers homes locals s place store m) {place' after}
    (hstands : n.Stands f callers place' after)
    (hkeeps : Keeps (· ∈ s.draft.registers) m.active.registers n.active.registers) (ht : t.Sound ctx)
    (hgrows : s.Grows t) (hscope : t.draft.scope = s.draft.scope) :
    Ready ctx f callers homes locals t place' after n where
  sound := ht
  housed := h.housed.grown hgrows hscope
  held := h.held.kept fun home hhome => hkeeps _ (h.housed.registers home hhome)
  stands := hstands

/-- Only registers of before count. -/
theorem Gives.since (h : Gives f callers u r place before' v store n)
    (hkeeps : Keeps (· ∈ s.draft.registers) before before') (hgrows : s.Grows u) (heq : place = place') :
    Gives f callers s r place' before v store n :=
  ⟨h.stands.at_place heq, h.value, hkeeps.trans h.keeps fun _ hr => hgrows.mem hr⟩

/-- Jumps leave registers as they are. -/
theorem Gives.jumped (h : Gives f callers s r place before v store m)
    (hn : n.Stands f callers place' store) (hregs : n.active.registers = m.active.registers) :
    Gives f callers s r place' before v store n :=
  ⟨hn, hregs ▸ h.value, hregs ▸ h.keeps⟩

namespace State.Sound

variable {type : Ty} {operation : Register → Operation}

theorem fresh_ne (hu : u.Sound ctx) (hr : r ∈ u.draft.registers) (type : Ty) : (u.fresh type).id ≠ r.id := by
  obtain ⟨i, hi⟩ := mem_iff_getElem?.mp hr
  have hlt := (List.getElem?_eq_some_iff.mp hi).1
  rw [hu.numbered i r hi]
  intro heq
  injection heq with heq
  omega

/-- A fresh register is written. -/
theorem gives_of_wrote (hu : u.Sound ctx) (hn : n.Stands f callers place store)
    (hwrote : Wrote (u.fresh type) v m n) : Gives f callers u (u.fresh type) place m.active.registers v store n where
  stands := hn
  value := by rw [hwrote, if_pos rfl]
  keeps r hr := by rw [hwrote, if_neg (hu.fresh_ne hr type)]

section
variable (hm : m.Stands f callers place store)
include hm

/-- An operation computes a fresh register. -/
theorem gives (hu : u.Sound ctx)
    (hhas : f.Has place (u.computes type op).operations) (ho : (op (u.fresh type)).outcome m.active.get store.memory =
      Operation.assigns store.memory (u.fresh type) y) (hxy : Corresponds x y) :
    m.Follows p strict fuel (Gives f callers u (u.fresh type) (place + 1) m.active.registers)
      ((Eval.of x >>= fun v => pure (some v)).result store) := by
  refine (hm.computes hhas id ho (by rwa [id_map])).bind fun {v _ n} hn => ?_
  obtain ⟨rfl, hn, hwrote⟩ := hn
  exact .done (hu.gives_of_wrote hn hwrote)

/-- A value is moved to a register that was taken before. -/
theorem settles (hs : s.Sound ctx)
    (hhas : f.Has place (CodeTree.plain (.move r (s.fresh type))).operations)
    (hgiven : m.active.registers.get? r.id = given) (hkeeps : Keeps (· ∈ s.draft.registers) before m.active.registers) :
    m.Follows p strict fuel (Gives f callers s (s.fresh type) (place + 1) before)
      ((Eval.of (demand f.symbol given) >>= fun v => pure (some v)).result store) := by
  have hsymbol := congrArg Procedure.symbol hm.procedure
  refine (hs.gives hm hhas rfl (corresponds_demand hsymbol hgiven)).mono fun hdone => ?_
  exact hdone.since hkeeps (.refl s) rfl

/-- The address of something is taken in one step. -/
theorem addresses (hu : u.Sound ctx)
    (hhas : f.Has place (u.computes type (.addressOf symbol)).operations) :
    ∃ n, Machine.Steps p 1 m n ∧
      Gives f callers u (u.fresh type) (place + 1) m.active.registers (some (.pointer symbol.text 0)) store n := by
  obtain ⟨n, hsteps, hn, hregs⟩ := hm.goesOn hhas rfl (p := p) rfl
  exact ⟨n, hsteps, hu.gives_of_wrote hn.silent (Machine.wrote_of_eq hregs)⟩

/-- What is stored at an address, or nothing, is loaded to a fresh register. -/
theorem loads (hu : u.Sound ctx)
    (hhas : f.Has place (u.computes type (.load addr)).operations) (hgiven : m.active.registers.get? addr.id = given) :
    m.Follows p strict fuel (Gives f callers u (u.fresh type) (place + 1) m.active.registers)
      ((Eval.of (demandPlace f.symbol given) >>= fun (block, offset) =>
        Eval.load block offset).result store) := by
  refine (hm.loads hhas hgiven).mono fun {v _ n} hn => ?_
  obtain ⟨rfl, hn, hwrote⟩ := hn
  exact hu.gives_of_wrote hn hwrote

end

end State.Sound

end

/-! ## Expressions -/

mutual

theorem LowersExpression.follows (S : Setting p E ctx final f) :
    LowersExpression ctx e s r code t →
      Ready ctx f callers homes locals s place store m → t.shared.Grows final →
      e.isResolved E.module (homes.map Home.entry) = true → f.Has place code.operations →
      m.Follows p E.strict E.fuel (Gives f callers s r (place + code.size) m.active.registers)
        ((E.evaluate locals e).result store)
  | .number resolved _ encoded, h, _, _, hhas => by
    rw [evaluate, S.resolve_bind resolved, Eval.check_bind encoded]
    exact h.sound.gives h.stands hhas rfl (Corresponds.pure _)
  | .boolean, h, _, _, hhas => by
    rw [evaluate]
    exact h.sound.gives h.stands hhas rfl (Corresponds.pure _)
  | .string isInterned hindex, h, hgrows, _, hhas => by
    subst isInterned
    rw [evaluate, S.literal_bind hindex hgrows]
    refine ((h.sound.interned _).gives h.stands hhas rfl (Corresponds.pure _)).mono fun hdone => ?_
    exact hdone.since (.refl _ _) ((State.Grows.refl s).interned _) rfl
  | .identifier bound, h, _, _, hhas => by
    obtain ⟨_, hfound, rfl⟩ := h.housed.home bound
    obtain ⟨x, hx, -, hvalue⟩ := h.held.lookup hfound
    rw [evaluate, Locals.find, hx]
    exact h.sound.gives h.stands hhas rfl (corresponds_demand (S.symbol_eq h.stands) hvalue)
  | .global found _ _ isAddressed, h, _, _, hhas => by
    subst isAddressed
    rw [evaluate, S.block_bind found]
    obtain ⟨n, hsteps, hn⟩ := h.sound.addresses h.stands hhas.first (p := p)
    refine .after hsteps (((h.sound.addressed found _).loads hn.stands hhas.second hn.value).mono fun hdone => ?_)
    exact hdone.since hn.keeps ((State.Grows.refl s).computed _ _ _) (by simp [Nat.add_assoc])
  | .binary known resolved _ first second .., h, hgrows, hres, hhas => by
    obtain ⟨ht, hst, hl⟩ := first.sound h.sound
    obtain ⟨hu, htu, -⟩ := second.sound ht
    obtain ⟨hleft, hright⟩ := and_eq_true_iff.mp hres
    rw [evaluate, Eval.operator, known, pure_bind, S.resolve_bind resolved]
    refine (first.follows S h (htu.shared.grows.trans hgrows) hleft hhas.first.first).bind fun {left _ n} hn => ?_
    have hready := h.moved hn.stands hn.keeps ht hst first.lays.2
    refine (second.follows S hready hgrows hright hhas.first.second).bind fun {right _ k} hk => ?_
    have hsymbol := S.symbol_eq hk.stands
    refine (hu.gives hk.stands hhas.third rfl ?_).mono fun hdone => ?_
    · exact (corresponds_number hsymbol ((hk.keeps _ hl).trans hn.value)).bind fun x =>
        (corresponds_number hsymbol hk.value).bind fun y => (Corresponds.step _).bind fun z => .pure _
    · exact hdone.since (hn.keeps.trans hk.keeps fun _ => hst.mem) (hst.trans htu) (by simp [Nat.add_assoc])
  | .comparison first second .., h, hgrows, hres, hhas => by
    obtain ⟨ht, hst, hl⟩ := first.sound h.sound
    obtain ⟨hu, htu, -⟩ := second.sound ht
    obtain ⟨hleft, hright⟩ := and_eq_true_iff.mp hres
    rw [evaluate]
    refine (first.follows S h (htu.shared.grows.trans hgrows) hleft hhas.first.first).bind fun {left _ n} hn => ?_
    have hready := h.moved hn.stands hn.keeps ht hst first.lays.2
    refine (second.follows S hready hgrows hright hhas.first.second).bind fun {right _ k} hk => ?_
    have hsymbol := S.symbol_eq hk.stands
    refine (hu.gives hk.stands hhas.third rfl ?_).mono fun hdone => ?_
    · exact (corresponds_demand hsymbol ((hk.keeps _ hl).trans hn.value)).bind fun x =>
        (corresponds_demand hsymbol hk.value).bind fun y => (Corresponds.step _).bind fun z => .pure _
    · exact hdone.since (hn.keeps.trans hk.keeps fun _ => hst.mem) (hst.trans htu) (by simp [Nat.add_assoc])
  | .not lower, h, hgrows, hres, hhas => by
    obtain ⟨ht, hst, -⟩ := lower.sound h.sound
    rw [evaluate]
    refine (lower.follows S h hgrows hres hhas.first).bind fun {given _ n} hn => ?_
    refine (ht.gives hn.stands hhas.second rfl ?_).mono fun hdone => ?_
    · refine (corresponds_demand (S.symbol_eq hn.stands) hn.value).bind fun v => ?_
      cases v <;> simp only [Value.isZero, bne_false] <;> exact .pure _
    · exact hdone.since hn.keeps hst (by simp [Nat.add_assoc])
  | .call lower, h, hgrows, hres, hhas => by
    rw [evaluate]
    refine (lower.follows S h hgrows hres hhas).mono fun hdone => ?_
    exact ⟨hdone.1, hdone.2.1 _ rfl, hdone.2.2⟩
  | @LowersExpression.index _ array index _ _ _ _ _ _ _ _ lower, h, hgrows, hres, hhas => by
    obtain ⟨ht, hst, -⟩ := lower.sound h.sound
    have heq : ∀ type site, E.evaluate locals (.index array index type site) = (do
        let block ← E.block array
        let given ← E.evaluate locals index
        Eval.of (element E.function.symbol given block)) >>= fun (block, offset) => Eval.load block offset := by
      simp only [evaluate, bind_assoc, implies_true]
    rw [heq]
    refine (lower.follows S h hgrows (and_eq_true_iff.mp hres).2 hhas.first).bind fun {place _ n} hn => ?_
    refine (ht.loads hn.stands hhas.second hn.value).mono fun hdone => ?_
    exact hdone.since hn.keeps hst (by simp [Nat.add_assoc])
  | .addressOf found, h, _, _, hhas => by
    rw [evaluate, S.block_bind found]
    obtain ⟨n, hsteps, hn⟩ := h.sound.addresses h.stands hhas (p := p)
    exact .after hsteps (.done hn)
  | .dereference _ _ lower, h, hgrows, hres, hhas => by
    obtain ⟨ht, hst, -⟩ := lower.sound h.sound
    rw [evaluate, S.symbol]
    refine (lower.follows S h hgrows hres hhas.first).bind fun {given _ n} hn => ?_
    refine (ht.loads hn.stands hhas.second hn.value).mono fun hdone => ?_
    exact hdone.since hn.keeps hst (by simp [Nat.add_assoc])
  | .keep resolved _ lower, h, hgrows, hres, hhas => by
    obtain ⟨ht, hst, -⟩ := lower.sound h.sound
    rw [evaluate, S.typeOf_bind lower h.housed hres, S.resolve_bind resolved]
    refine (lower.follows S h hgrows hres hhas.first).bind fun {given _ n} hn => .assuming fun hadmits => ?_
    rw [hn.stands.convert_eq hhas.second rfl hn.value hadmits]
    refine (ht.gives hn.stands hhas.second rfl ?_).mono fun hdone => ?_
    · exact corresponds_demand (S.symbol_eq hn.stands) hn.value
    · exact hdone.since hn.keeps hst (by simp [Nat.add_assoc])
  | .convert resolved _ lower _ different, h, hgrows, hres, hhas => by
    obtain ⟨ht, hst, -⟩ := lower.sound h.sound
    rw [evaluate, S.typeOf_bind lower h.housed hres, S.resolve_bind resolved]
    refine (lower.follows S h hgrows hres hhas.first).bind fun {given _ n} hn => ?_
    rw [convert, if_neg fun h => different h.1]
    have hsymbol := S.symbol_eq hn.stands
    refine (ht.gives hn.stands hhas.second rfl ?_).mono fun hdone => ?_
    · exact .ite (corresponds_pointer hsymbol hn.value) ((corresponds_number hsymbol hn.value).bind fun x =>
        (Corresponds.step _).bind fun y => .pure _)
    · exact hdone.since hn.keeps hst (by simp [Nat.add_assoc])
  | @LowersExpression.ternary _ _ _ _ _ scalar _ _ t t' u u' _ _ _ _ _ _ _ _ _ _ _ _ _ _ _ _ _ _ isResult
      _ _ lowerTest startsTrue lowerTrue startsFalse lowerFalse, h, hgrows, hres, hhas => by
    have hs := (h.sound.allocated scalar).labelled.labelled
    have hsallocated := ((State.Grows.refl s).allocated scalar).labelled.labelled
    obtain ⟨ht, hst, htest⟩ := lowerTest.sound hs
    have ht' : t'.Sound ctx := startsTrue ▸ ht.gotoIfFalse htest _
    have htt' : t.Grows t' := startsTrue ▸ (State.Grows.refl t).emitted _
    obtain ⟨hu, htu, hfirst⟩ := lowerTrue.sound ht'
    subst isResult
    have hresult := htu.mem (htt'.mem (hst.mem (s.fresh_mem_allocated _)))
    have hu' : u'.Sound ctx := startsFalse ▸ ((hu.move hfirst hresult).goto _).label _
    have huu' : u.Grows u' := startsFalse ▸ (((State.Grows.refl u).emitted _).emitted _).emitted _
    obtain ⟨-, huv, -⟩ := lowerFalse.sound hu'
    have hscope : t'.draft.scope = t.draft.scope := startsTrue ▸ rfl
    have hscope' : u'.draft.scope = t.draft.scope := by
      rw [startsFalse]
      exact lowerTrue.lays.2.trans hscope
    have hsu' := (hst.trans htt').trans (htu.trans huu')
    have hugrows := (huu'.trans huv).shared.grows.trans hgrows
    obtain ⟨hboth, hfalse⟩ := and_eq_true_iff.mp hres
    obtain ⟨hcond, htrue⟩ := and_eq_true_iff.mp hboth
    rw [evaluate, S.symbol]
    have hready := h.moved h.stands (.refl _ _) hs hsallocated rfl
    refine (lowerTest.follows S hready ((htt'.trans htu).shared.grows.trans hugrows) hcond hhas.first).bind
      fun {given _ n} hn => ?_
    refine (hn.stands.branches S.labels hhas.second hn.value).bind fun {x _ k} hk => ?_
    obtain ⟨rfl, hk, hregs⟩ := hk
    have hkeeps := hregs ▸ hn.keeps
    by_cases hx : x.isZero
    · rw [if_pos hx] at hk ⊢
      have hready := hready.moved hk hkeeps hu' hsu' (hscope'.trans lowerTest.lays.2)
      refine (lowerFalse.follows S hready hgrows hfalse hhas.second.falseCode.first).bind fun {v _ l} hl => ?_
      have hkeeps := hkeeps.trans hl.keeps fun _ => hsu'.mem
      refine (h.sound.settles hl.stands hhas.second.falseCode.second hl.value
        (fun r hr => hkeeps r (hsallocated.mem hr))).steps fun hdone => ?_
      obtain ⟨n', hsteps, hn', hregs'⟩ :=
        (hdone.stands.at_place (by simp [Nat.add_assoc])).joins_false hhas.second (p := p)
      exact ⟨1, n', hsteps, hdone.jumped (hn'.at_place (by simp [Nat.add_assoc])) hregs'⟩
    · rw [if_neg hx] at hk ⊢
      have hready := hready.moved hk hkeeps ht' (hst.trans htt') (hscope.trans lowerTest.lays.2)
      refine (lowerTrue.follows S hready hugrows htrue hhas.second.trueCode.first).bind fun {v _ l} hl => ?_
      have hkeeps := hkeeps.trans hl.keeps fun _ => (hst.trans htt').mem
      refine (h.sound.settles hl.stands hhas.second.trueCode.second hl.value
        (fun r hr => hkeeps r (hsallocated.mem hr))).steps fun hdone => ?_
      obtain ⟨n', hsteps, hn', hregs'⟩ :=
        (hdone.stands.at_place (by simp [Nat.add_assoc])).joins_true S.labels hhas.second (p := p)
      exact ⟨2, n', hsteps, hdone.jumped (hn'.at_place (by simp [Nat.add_assoc])) hregs'⟩

theorem LowersArguments.follows (S : Setting p E ctx final f) :
    LowersArguments ctx args s regs code t →
      Ready ctx f callers homes locals s place store m → t.shared.Grows final →
      areResolved E.module (homes.map Home.entry) args = true → f.Has place code.operations →
      m.Follows p E.strict E.fuel (fun given after n => n.Stands f callers (place + code.size) after ∧
          Forall₂ (fun r v => n.active.registers.get? r.id = v) regs given ∧
          Keeps (· ∈ s.draft.registers) m.active.registers n.active.registers)
        ((E.evaluateAll locals args).result store)
  | .nil, h, _, _, _ => by
    rw [evaluateAll]
    exact .done ⟨h.stands, .nil, .refl _ _⟩
  | .cons first remaining, h, hgrows, hres, hhas => by
    obtain ⟨ht, hst, hr⟩ := first.sound h.sound
    obtain ⟨_, htu, -⟩ := remaining.sound ht
    obtain ⟨hfirst, hrest⟩ := and_eq_true_iff.mp hres
    rw [evaluateAll]
    refine (first.follows S h (htu.shared.grows.trans hgrows) hfirst hhas.first).bind fun {v _ n} hn => ?_
    have hready := h.moved hn.stands hn.keeps ht hst first.lays.2
    refine (remaining.follows S hready hgrows hrest hhas.second).bind fun {given _ k} hk => ?_
    obtain ⟨hk, hgiven, hkeeps⟩ := hk
    exact .done ⟨hk.at_place (by simp [Nat.add_assoc]), .cons ((hkeeps _ hr).trans hn.value) hgiven,
      hn.keeps.trans hkeeps fun _ => hst.mem⟩

theorem LowersElement.follows (S : Setting p E ctx final f) {name index s t addr element} {code : CodeTree}
    {place store m} :
    LowersElement ctx name index s addr element code t →
      Ready ctx f callers homes locals s place store m → t.shared.Grows final →
      index.isResolved E.module (homes.map Home.entry) = true → f.Has place code.operations →
      m.Follows p E.strict E.fuel (fun (block, offset) =>
          Gives f callers s addr (place + code.size) m.active.registers (some (.pointer block offset)))
        ((do
          let block ← E.block name
          let given ← E.evaluate locals index
          Eval.of (Source.element E.function.symbol given block)).result store)
  | .element found _ _ _ lower isBase isAddressed, h, hgrows, hres, hhas => by
    subst isBase isAddressed
    obtain ⟨ht, hst, hr⟩ := lower.sound h.sound
    rw [S.block_bind found]
    refine (lower.follows S h hgrows hres hhas.first.first).bind fun {given _ n} hn => ?_
    obtain ⟨k, hsteps, hk⟩ := ht.addresses hn.stands hhas.first.second (p := p)
    have hbase := Operation.place_eq_ok.mpr (Activation.get_eq_ok.mpr hk.value)
    refine .after hsteps ((hk.stands.computes hhas.third (fun place => .pointer place.1 place.2) rfl ?_).mono
      fun {pair _ l} hl => ?_)
    · rw [hbase, Source.element, map_bind]
      exact (corresponds_number (S.symbol_eq hk.stands) ((hk.keeps _ hr).trans hn.value)).bind fun x => .pure _
    · obtain ⟨rfl, hl, hwrote⟩ := hl
      refine ((ht.addressed found _).gives_of_wrote hl hwrote).since (hn.keeps.trans hk.keeps fun _ => hst.mem)
        (hst.computed _ _ _) (by simp [Nat.add_assoc])

theorem LowersCall.follows (S : Setting p E ctx final f) {args type callee s t result code place store m} :
    LowersCall ctx args type callee s result code t →
      Ready ctx f callers homes locals s place store m → t.shared.Grows final →
      areResolved E.module (homes.map Home.entry) args = true → f.Has place code.operations →
      m.Follows p E.strict E.fuel (fun v after n => n.Stands f callers (place + code.size) after ∧
          (∀ r, result = some r → n.active.registers.get? r.id = v) ∧
          Keeps (· ∈ s.draft.registers) m.active.registers n.active.registers)
        ((E.evaluateAll locals args >>= fun given => E.invoke callee given type).result store)
  | .routine _ _ lower, h, hgrows, hres, hhas => by
    refine (lower.follows S h hgrows hres hhas.first).bind fun {given _ n} hn => ?_
    obtain ⟨hn, hgiven, hkeeps⟩ := hn
    rw [invoke, S.symbol, ← bind_assoc]
    refine (hn.prints hhas.second hgiven).bind fun {_ _ k} hk => ?_
    exact .done ⟨hk.1.at_place (by simp [Nat.add_assoc]), nofun, hk.2 ▸ hkeeps⟩
  | .procedure resolves lower void _, h, hgrows, hres, hhas => by
    obtain ⟨ht, -⟩ := h.sound.resolved resolves
    obtain ⟨-, htu, -⟩ := lower.sound ht
    have hst := State.Grows.resolved resolves
    have hready := h.moved h.stands (.refl _ _) ht hst (congrArg (·.scope) resolves.draft_eq)
    obtain ⟨_, _, hfunction, _, hfound, hanswers⟩ :=
      S.callee resolves h.sound (htu.shared.grows.trans hgrows)
    refine (lower.follows S hready hgrows hres hhas.first).bind fun {given _ n} hn => ?_
    obtain ⟨hn, hgiven, hkeeps⟩ := hn
    rw [S.invoke_eq hfunction void]
    refine (hn.calls hhas.second hfound hanswers hgiven).bind fun {v _ k} hk => ?_
    obtain ⟨l, hsteps, hl, hregs⟩ := hk.resumes hn (p := p)
    rw [Eval.received_void]
    refine .after hsteps (.done ⟨hl.at_place (by simp [Nat.add_assoc]), nofun, ?_⟩)
    exact fun r hr => (congrArg _ hregs).trans (hkeeps r (hst.mem hr))
  | .function resolves lower substituted value _ _ text, h, hgrows, hres, hhas => by
    obtain ⟨ht, -⟩ := h.sound.resolved resolves
    obtain ⟨hu, htu, -⟩ := lower.sound ht
    have hst := State.Grows.resolved resolves
    have hready := h.moved h.stands (.refl _ _) ht hst (congrArg (·.scope) resolves.draft_eq)
    obtain ⟨function, proc, hfunction, hsym, hfound, hanswers⟩ :=
      S.callee resolves h.sound (htu.shared.grows.trans hgrows)
    refine (lower.follows S hready hgrows hres hhas.first).bind fun {given _ n} hn => ?_
    obtain ⟨hn, hgiven, hkeeps⟩ := hn
    rw [S.invoke_eq hfunction substituted]
    refine (hn.calls hhas.second hfound hanswers hgiven).bind fun {v _ k} hk => ?_
    cases v with
    | some =>
      obtain ⟨l, hsteps, hl, hwrote⟩ := hk.resumes_with hn (p := p)
      have hgives := (hu.gives_of_wrote hl hwrote).since hkeeps htu rfl
      rw [Eval.received_some value]
      refine .after hsteps (.done ⟨hl.at_place (by simp [Nat.add_assoc]), fun r hr => ?_, fun r hr => ?_⟩)
      · cases hr
        exact hgives.value
      · exact hgives.keeps r (hst.mem hr)
    | none =>
      have hcallee : proc.symbol = function.symbol := by simpa [hsym] using find?_some hfound
      rw [hcallee] at hk
      obtain ⟨w, hend, hw⟩ := hk.lacks (hsym ▸ text) (p := p)
      rw [Eval.received_none value (hsym ▸ text)]
      exact fun _ => Or.inr ⟨0, k, w, _, .refl k, hend, rfl, hw⟩

end

end Retarget.Lower
