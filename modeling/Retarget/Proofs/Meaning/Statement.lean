import Retarget.Proofs.Meaning.Expression

/-!
# Statements

Behind the code of a statement the homes hold the variables as the statement leaves them. A declaration gives a
variable a home of its own, and at the end of a block the names of before have their homes again. All other registers
that were taken before are kept, so that what a loop computed ahead of its rounds is there in each of them.
-/
namespace Retarget.Lower

open Bool List Machine Operation Source Source.Eval

/-! ## Changing variables -/

/-- The register was taken before, and no variable in scope lives there. -/
def Spare (homes : List Home) (s : State) (r : Register) : Prop :=
  r ∈ s.draft.registers ∧ ∀ home ∈ homes, home.register ≠ r

/-- Variables are where they should be, those that were added first, and spare registers are kept. -/
structure Remains (added homes : List Home) (s : State) (before : Assoc Numeral Value) (locals : Locals)
    (registers : Assoc Numeral Value) : Prop where
  held : Held (added ++ homes) locals registers
  keeps : Keeps (Spare homes s) before registers

/-- The homes that were added are new, and are in scope. -/
structure Adds (ctx : Context) (homes added : List Home) (scope : Source.Scope) (s t : State) : Prop where
  entries : added.map Home.entry = scope
  housed : Housed ctx (added ++ homes) t
  fresh : ∀ home ∈ added, home.register ∉ s.draft.registers

variable {p : Program} {E : Evaluator} {ctx : Context} {final : Shared} {f : Procedure} {callers : List Suspended}
  {homes : List Home} {locals : Locals} {s t u : State} {place : Nat} {store : Store} {m n : Machine} {name : String}

section
variable {before registers registers' : Assoc Numeral Value}

/-- Assigning to a variable is writing to its home. -/
theorem Held.assign (h : Held homes locals registers) (hdistinct : (homes.map (·.register.id)).Nodup)
    (hfound : homes.find? (·.name == name) = some home)
    (hwrote : ∀ id, registers'.get? id = if home.register.id = id then some v else registers.get? id) :
    Held homes (locals.assign name v) registers' := by
  induction h with
  | nil => cases hfound
  | @cons first x _ _ hfirst hrest ih =>
    rw [map_cons, nodup_cons] at hdistinct
    rw [find?_cons] at hfound
    rw [Locals.assign, hfirst.1]
    cases hname : first.name == name with
    | true =>
      rw [hname] at hfound
      cases hfound
      rw [if_pos (beq_iff_eq.mp hname)]
      refine .cons ⟨rfl, hfirst.2.1, by rw [hwrote, if_pos rfl]⟩ (Held.kept hrest fun other hother => ?_)
      rw [hwrote, if_neg]
      exact fun heq => hdistinct.1 (heq ▸ mem_map_of_mem hother)
    | false =>
      rw [hname] at hfound
      rw [if_neg (by simpa using hname)]
      refine .cons ⟨hfirst.1, hfirst.2.1, ?_⟩ (ih hdistinct.2 hfound)
      rw [hwrote, if_neg, hfirst.2.2]
      exact fun heq => hdistinct.1 (heq ▸ mem_map_of_mem (mem_of_find?_eq_some hfound))

/-- At the end of a block the variables of before are left. -/
theorem Held.leave {added inner} (h : Held homes locals registers) (hinner : Held (added ++ homes) inner registers') :
    Held homes (locals.leave inner) registers' := by
  have hlength : inner.length - locals.length = added.length := by
    rw [← hinner.length_eq, ← h.length_eq, length_append]
    omega
  have hdrop := forall₂_drop added.length hinner
  rwa [drop_left, ← hlength] at hdrop

theorem Adds.since (h : Adds ctx homes added scope t u) (hgrows : s.Grows t) : Adds ctx homes added scope s u :=
  { h with fresh := fun home hhome hmem => h.fresh home hhome (hgrows.mem hmem) }

/-- A new variable gets a fresh register. -/
theorem Housed.declared (h : Housed ctx homes s) (hs : s.Sound ctx) {type}
    (hres : type.substitute ctx.bindings = .ok scalar)
    (hregs : t.draft.registers = (s.allocated scalar).draft.registers)
    (hscope : t.draft.scope = s.draft.scope.set name (s.fresh scalar)) :
    Housed ctx (⟨name, type, s.fresh scalar⟩ :: homes) t where
  scope other := by
    rw [hscope, Assoc.get?_set, find?_cons]
    by_cases heq : name = other
    · rw [if_pos heq, heq, beq_self_eq_true]
      rfl
    · rw [if_neg heq, beq_eq_false_iff_ne.mpr heq]
      exact h.scope other
  registers := by
    rw [hregs, forall_mem_cons]
    exact ⟨s.fresh_mem_allocated scalar, fun home hhome => mem_append_left _ (h.registers home hhome)⟩
  distinct := by
    rw [map_cons, nodup_cons]
    refine ⟨fun hmem => ?_, h.distinct⟩
    obtain ⟨home, hhome, heq⟩ := mem_map.mp hmem
    exact hs.fresh_ne (h.registers home hhome) scalar heq.symm
  types := forall_mem_cons.mpr ⟨hres, h.types⟩

/-- Only what was taken before counts. -/
theorem Remains.later (h : Remains added homes t before locals registers)
    (hkeeps : Keeps (Spare homes s) before' before) (hgrows : s.Grows t) :
    Remains added homes s before' locals registers :=
  ⟨h.held, hkeeps.trans h.keeps fun _ hr => ⟨hgrows.mem hr.1, hr.2⟩⟩

theorem Remains.since (h : Remains added homes t before locals registers)
    (hkeeps : Keeps (· ∈ s.draft.registers) before' before) (hgrows : s.Grows t) :
    Remains added homes s before' locals registers :=
  h.later (fun r hr => hkeeps r hr.1) hgrows

end

/-- A statement that declares nothing leaves the scope as it is. -/
theorem Housed.adds_nil (h : Housed ctx homes s) (hgrows : s.Grows t) (hscope : t.draft.scope = s.draft.scope) :
    Adds ctx homes [] [] s t :=
  ⟨rfl, h.grown hgrows hscope, nofun⟩

section
variable (h : Ready ctx f callers homes locals s place store m)
include h

/-- A declaration adds its variable, with a fresh register for its home. -/
theorem Ready.adds {type} (hres : type.substitute ctx.bindings = .ok scalar) :
    Adds ctx homes [⟨name, type, s.fresh scalar⟩] [(name, type)] s ((s.declared name scalar).emitted i) := by
  refine ⟨rfl, h.housed.declared h.sound hres rfl rfl, ?_⟩
  rw [forall_mem_singleton]
  exact fun hmem => h.sound.fresh_ne hmem scalar rfl

/-- The new variable lives there once the register is written. -/
theorem Ready.declares (name : String) (type : Ty) (hwrote : Wrote (s.fresh scalar) (some v) m n) :
    Held (⟨name, type, s.fresh scalar⟩ :: homes) (⟨name, scalar, v⟩ :: locals) n.active.registers ∧
      Keeps (· ∈ s.draft.registers) m.active.registers n.active.registers := by
  have hkeeps : Keeps (· ∈ s.draft.registers) m.active.registers n.active.registers := fun r hr => by
    rw [hwrote, if_neg (h.sound.fresh_ne hr scalar)]
  refine ⟨.cons ⟨rfl, rfl, ?_⟩ ?_, hkeeps⟩
  · rw [hwrote, if_pos rfl]
  · exact h.held.kept fun home hhome => hkeeps _ (h.housed.registers home hhome)

/-- Where all registers are kept, so are the variables. -/
theorem Ready.remains (hkeeps : Keeps (· ∈ s.draft.registers) m.active.registers n.active.registers) :
    Remains [] homes s m.active.registers locals n.active.registers :=
  ⟨h.held.kept fun home hhome => hkeeps _ (h.housed.registers home hhome), fun r hr => hkeeps r hr.1⟩

/-- The home of a variable is written. -/
theorem Ready.assigns (hbound : s.draft.scope.get? name = some r) (hwrote : Wrote r (some v) m n) :
    Remains [] homes s m.active.registers (locals.assign name v) n.active.registers := by
  obtain ⟨home, hfound, rfl⟩ := h.housed.home hbound
  refine ⟨h.held.assign h.housed.distinct hfound hwrote, fun r hr => ?_⟩
  rw [hwrote, if_neg]
  intro hid
  have hmem := mem_of_find?_eq_some hfound
  exact hr.2 home hmem (h.sound.numbered.eq_of_id (h.housed.registers home hmem) hr.1 hid)

end

/-! ## Assignments -/

section
variable (S : Setting p E ctx final f)
include S

omit S in
theorem Eval.saves_return (place : Eval (String × Number)) (given : Eval Value) (locals : Locals) :
    (do
      let (block, offset) ← place
      save block offset (← given)
      return locals : Eval Locals) =
      (place >>= fun (block, offset) => given >>= fun value => save block offset value) >>= fun _ => pure locals := by
  simp only [bind_assoc]

theorem LowersAssignment.follows (h : LowersAssignment ctx value target s code t)
    (hready : Ready ctx f callers homes locals s place store m) (hgrows : t.shared.Grows final)
    (htarget : target.isResolved E.module (homes.map Home.entry) = true)
    (hvalue : value.isResolved E.module (homes.map Home.entry) = true) (hhas : f.Has place code.operations) :
    m.Follows p E.strict E.fuel (fun after store n => n.Stands f callers (place + code.size) store ∧
      Remains [] homes s m.active.registers after n.active.registers)
      ((E.assign locals value target).result store) := by
  cases h with
  | named lower bound =>
    obtain ⟨ht, hst, -⟩ := lower.sound hready.sound
    rw [Evaluator.assign]
    refine (lower.follows S hready hgrows hvalue hhas.first).bind fun {given _ n} hn => ?_
    have hready' := hready.moved hn.stands hn.keeps ht hst lower.lays.2
    refine (hn.stands.computes hhas.second id rfl ?_).bind fun {v _ k} hk => ?_
    · rw [id_map]
      exact corresponds_demand (S.symbol_eq hn.stands) hn.value
    · obtain ⟨rfl, hk, hwrote⟩ := hk
      exact .done ⟨hk.at_place (by simp [Nat.add_assoc]), (hready'.assigns bound hwrote).since hn.keeps hst⟩
  | global found _ _ lower isAddress =>
    subst isAddress
    obtain ⟨ht, hst, hr⟩ := lower.sound hready.sound
    rw [Evaluator.assign, S.block_bind found, S.symbol]
    refine (lower.follows S hready hgrows hvalue hhas.first.first).bind fun {given _ n} hn => ?_
    obtain ⟨k, hsteps, hk⟩ := ht.addresses hn.stands hhas.first.second (p := p)
    rw [← bind_assoc]
    refine .after hsteps ((hk.stands.saves hhas.third hk.value ((hk.keeps _ hr).trans hn.value)).bind
      fun {_ _ l} hl => .done ⟨hl.1.at_place (by simp [Nat.add_assoc]), hready.remains ?_⟩)
    rw [hl.2]
    exact hn.keeps.trans hk.keeps fun _ => hst.mem
  | @index array index _ _ _ _ _ _ _ _ _ lowerTarget lower =>
    obtain ⟨ht, hst, haddr⟩ := lowerTarget.sound hready.sound
    obtain ⟨-, htu, -⟩ := lower.sound ht
    have heq : E.assign locals value (.index array index) = (do
        let block ← E.block array
        let given ← E.evaluate locals index
        of (element E.function.symbol given block)) >>= fun place => do
          let given ← E.evaluate locals value
          let value ← .of (demand E.function.symbol given)
          save place.1 place.2 value
          return locals := by
      simp only [Evaluator.assign, bind_assoc]
    rw [heq]
    refine (lowerTarget.follows S hready (htu.shared.grows.trans hgrows) htarget hhas.first.first).bind
      fun {place _ n} hn => ?_
    have hready' := hready.moved hn.stands hn.keeps ht hst lowerTarget.lays.2
    refine (lower.follows S hready' hgrows hvalue hhas.first.second).bind fun {given _ k} hk => ?_
    rw [← bind_assoc, S.symbol]
    refine (hk.stands.saves hhas.third ((hk.keeps _ haddr).trans hn.value) hk.value).bind
      fun {_ _ l} hl => .done ⟨hl.1.at_place (by simp [Nat.add_assoc]), hready.remains ?_⟩
    rw [hl.2]
    exact hn.keeps.trans hk.keeps fun _ => hst.mem
  | dereference lowerTarget lower =>
    obtain ⟨ht, hst, haddr⟩ := lowerTarget.sound hready.sound
    obtain ⟨-, htu, -⟩ := lower.sound ht
    rw [Evaluator.assign, S.symbol]
    refine (lowerTarget.follows S hready (htu.shared.grows.trans hgrows) htarget hhas.first.first).bind
      fun {addr _ n} hn => ?_
    have hready' := hready.moved hn.stands hn.keeps ht hst lowerTarget.lays.2
    refine (lower.follows S hready' hgrows hvalue hhas.first.second).bind fun {given _ k} hk => ?_
    rw [Eval.saves_return]
    refine (hk.stands.saves hhas.third ((hk.keeps _ haddr).trans hn.value) hk.value).bind
      fun {_ _ l} hl => .done ⟨hl.1.at_place (by simp [Nat.add_assoc]), hready.remains ?_⟩
    rw [hl.2]
    exact hn.keeps.trans hk.keeps fun _ => hst.mem

/-- A step of a variable. -/
theorem Ready.steps (h : Ready ctx f callers homes locals s place store m)
    (hbound : s.draft.scope.get? name = some home) (hnumeric : home.type.isNumeric = true)
    (hhas : f.Has place (.step dir home :: ops)) :
    m.Follows p E.strict E.fuel (fun after store n => n.Stands f callers (place + 1) store ∧
      Remains [] homes s m.active.registers after n.active.registers)
      ((E.step locals dir.operator name).result store) := by
  obtain ⟨_, hfound, hreg⟩ := h.housed.home hbound
  obtain ⟨x, hx, htype, hvalue⟩ := h.held.lookup hfound
  rw [hreg] at htype hvalue
  rw [Evaluator.step, Locals.find, hx, pure_bind]
  refine (h.stands.computes hhas id rfl ?_).bind fun {v _ n} hn => ?_
  · rw [id_map, hnumeric, htype]
    exact (corresponds_number (S.symbol_eq h.stands) hvalue).bind fun y => (Corresponds.step _).bind fun z => .pure _
  · obtain ⟨rfl, hn, hwrote⟩ := hn
    exact .done ⟨hn, h.assigns hbound hwrote⟩

end

/-! ## Choices and loops -/

/-- The evaluation is followed wherever the machine is ready for the code. Variables that it adds live in registers
which were not taken. -/
def Runs (p : Program) (strict : Bool) (fuel : Nat) (ctx : Context) (f : Procedure) (callers : List Suspended)
    (homes : List Home) (s : State) (place : Nat) (code : CodeTree) (x : Locals → Eval Flow) : Prop :=
  ∀ ⦃locals : Locals⦄ ⦃store : Store⦄ ⦃m : Machine⦄, Ready ctx f callers homes locals s place store m →
    m.Follows p strict fuel (Arrives f callers (place + code.size) fun after registers =>
      ∃ added, (∀ home ∈ added, home.register ∉ s.draft.registers) ∧
        Remains added homes s m.active.registers after registers) ((x locals).result store)

section
variable {code code' code'' : CodeTree} {x y : Locals → Eval Flow}

/-- The machine is where lowering was, after whatever it did since. -/
theorem Ready.again (h : Ready ctx f callers homes locals s place store m) {after store' place' before}
    (hn : n.Stands f callers place' store') (hremains : Remains [] homes s before after n.active.registers) :
    Ready ctx f callers homes after s place' store' n :=
  ⟨h.sound, h.housed, hremains.held, hn⟩

/-- What a block declares is forgotten at its end. -/
theorem Runs.block (h : Runs p strict fuel ctx f callers homes s place code x)
    (hready : Ready ctx f callers homes locals s place store m) :
    m.Follows p strict fuel (Arrives f callers (place + code.size) (Remains [] homes s m.active.registers))
      ((block x locals).result store) := by
  refine (h hready).bind fun {flow _ n} hn => ?_
  cases flow with
  | returns => exact .done hn
  | goesOn =>
    obtain ⟨hn, _, -, hremains⟩ := hn
    exact .done ⟨hn, hready.held.leave hremains.held, hremains.keeps⟩

section
variable (S : Setting p E ctx final f) {condition : Expression} {test : Register}
  (lowerTest : LowersExpression ctx condition s test code t) (hready : Ready ctx f callers homes locals s place store m)
include S lowerTest hready

/-- A choice is followed if both of its parts are. -/
theorem LowersExpression.chooses {t' u'} (hgrows : t.shared.Grows final)
    (hres : condition.isResolved E.module (homes.map Home.entry) = true)
    (hhas : f.Has place (code ++ .branch test elseLabel endLabel code' code'').operations) (ht' : t'.Sound ctx)
    (htt' : t.Grows t') (hscope : t'.draft.scope = t.draft.scope) (hu' : u'.Sound ctx) (htu' : t.Grows u')
    (hscope' : u'.draft.scope = t.draft.scope)
    (htrue : Runs p E.strict E.fuel ctx f callers homes t' (place + code.size + 1) code' x)
    (hfalse : Runs p E.strict E.fuel ctx f callers homes u' (place + code.size + code'.size + 3) code'' y) :
    m.Follows p E.strict E.fuel (Arrives f callers (place + (code ++ .branch test elseLabel endLabel code' code'').size)
        (Remains [] homes s m.active.registers))
      ((do if ← E.holds locals condition then block x locals else block y locals).result store) := by
  obtain ⟨-, hst, -⟩ := lowerTest.sound hready.sound
  rw [Evaluator.holds, bind_assoc, S.symbol]
  refine (lowerTest.follows S hready hgrows hres hhas.first).bind fun {given _ n} hn => ?_
  rw [bind_assoc]
  refine (hn.stands.branches S.labels hhas.second hn.value).bind fun {x _ k} hk => ?_
  obtain ⟨rfl, hk, hregs⟩ := hk
  have hkeeps := hregs ▸ hn.keeps
  rw [pure_bind]
  by_cases hx : x.isZero
  · rw [if_pos hx] at hk
    rw [if_neg (by simp [hx])]
    refine (hfalse.block (hready.moved hk hkeeps hu' (hst.trans htu') (hscope'.trans lowerTest.lays.2))).steps
      fun {flow _ l} hl => ?_
    cases flow with
    | returns => exact ⟨0, l, .refl l, hl⟩
    | goesOn =>
      obtain ⟨l', hsteps, hl', hregs'⟩ := hl.1.joins_false hhas.second (p := p)
      refine ⟨1, l', hsteps, hl'.at_place (by simp [Nat.add_assoc]), ?_⟩
      rw [hregs']
      exact hl.2.since hkeeps (hst.trans htu')
  · rw [if_neg hx] at hk
    rw [if_pos (by simp [hx])]
    refine (htrue.block (hready.moved hk hkeeps ht' (hst.trans htt') (hscope.trans lowerTest.lays.2))).steps
      fun {flow _ l} hl => ?_
    cases flow with
    | returns => exact ⟨0, l, .refl l, hl⟩
    | goesOn =>
      obtain ⟨l', hsteps, hl', hregs'⟩ := hl.1.joins_true S.labels hhas.second (p := p)
      refine ⟨2, l', hsteps, hl'.at_place (by simp [Nat.add_assoc]), ?_⟩
      rw [hregs']
      exact hl.2.since hkeeps (hst.trans htt')

end

/-- A loop is followed if its body is. -/
theorem LowersExpression.repeats (S : Setting p E ctx final f) {condition test header exit}
    (lowerTest : LowersExpression ctx condition s test code t)
    (hready : Ready ctx f callers homes locals s (place + 1) store m) {t'} (hgrows : t.shared.Grows final)
    (hres : condition.isResolved E.module (homes.map Home.entry) = true)
    (hhas : f.Has place (CodeTree.loop header exit code test code').operations) (ht' : t'.Sound ctx) (htt' : t.Grows t')
    (hscope : t'.draft.scope = t.draft.scope)
    (hbody : Runs p E.strict E.fuel ctx f callers homes t' (place + code.size + 2) code' x) :
    m.Follows p E.strict E.fuel (Arrives f callers (place + (CodeTree.loop header exit code test code').size)
        (Remains [] homes s m.active.registers))
      ((loop (E.holds · condition) (block x) E.fuel locals).result store) := by
  obtain ⟨-, hst, -⟩ := lowerTest.sound hready.sound
  -- The invariant is that the variables remain. Evaluating the condition and the body starts from there.
  refine Stands.loops (I := Remains [] homes s m.active.registers) (J := Remains [] homes s m.active.registers)
    S.labels hhas (fun {n locals _} hn hremains => ?_) (fun {n locals _} hn hremains => ?_) (Nat.le_refl _)
    hready.stands (hready.remains (.refl _ _))
  · rw [Evaluator.holds, S.symbol]
    have hagain := hready.again hn hremains
    refine (lowerTest.follows S hagain hgrows hres hhas.conditionCode).bind fun {given _ k} hk => ?_
    refine (hk.stands.checks S.labels hhas hk.value).bind fun {x _ l} hl => .done ?_
    obtain ⟨rfl, hl, hregs⟩ := hl
    have hremains := ((hready.again hn hremains).remains (hregs ▸ hk.keeps)).later hremains.keeps (.refl s)
    cases hx : x.isZero with
    | true | false => exact ⟨by simpa [hx] using hl, hremains⟩
  · have hready' : Ready ctx f callers homes locals t' _ _ n :=
      ⟨ht', hready.housed.grown (hst.trans htt') (hscope.trans lowerTest.lays.2), hremains.held, hn⟩
    refine (hbody.block hready').mono fun {flow _ l} hl => ?_
    cases flow with
    | returns => exact hl
    | goesOn => exact ⟨hl.1, hl.2.later hremains.keeps (hst.trans htt')⟩

/-- The register of an expression was not taken before. -/
theorem LowersExpression.register_not_mem (h : LowersExpression ctx e s r code t) (hs : s.Sound ctx) :
    r ∉ s.draft.registers := by
  have hfresh : ∀ {u : State} (type : Ty), u.Sound ctx → s.Grows u → u.fresh type ∉ s.draft.registers :=
    fun type hu hsu hmem => hu.fresh_ne (hsu.mem hmem) type rfl
  cases h with
  | number | boolean | identifier | addressOf => exact hfresh _ hs (.refl s)
  | string isInterned =>
    exact hfresh _ (isInterned ▸ hs.interned _) (isInterned ▸ (State.Grows.refl s).interned _)
  | global found _ _ isAddressed =>
    exact hfresh _ (isAddressed ▸ hs.addressed found _) (isAddressed ▸ (State.Grows.refl s).computed _ _ _)
  | binary _ _ _ first second | comparison first second =>
    obtain ⟨ht, hst, -⟩ := first.sound hs
    obtain ⟨hu, htu, -⟩ := second.sound ht
    exact hfresh _ hu (hst.trans htu)
  | not lower | index lower | dereference _ _ lower | keep _ _ lower | convert _ _ lower =>
    exact hfresh _ (lower.sound hs).1 (lower.sound hs).2.1
  | call lower =>
    cases lower with
    | function resolves lower =>
      obtain ⟨ht, -⟩ := hs.resolved resolves
      obtain ⟨hu, htu, -⟩ := lower.sound ht
      exact hfresh _ hu ((State.Grows.resolved resolves).trans htu)
  | ternary _ _ isResult =>
    exact isResult ▸ hfresh _ hs (.refl s)

/-- A comparison is one computation. -/
theorem below_eq {bound name x} (hx : locals.lookup? name = some x) :
    E.below bound name locals = of (do
      let y ← demand E.function.symbol bound
      (evaluateComparison .lt x.value y).mapError .stopped) := by
  rw [Evaluator.below, Locals.find, hx, pure_bind]
  cases demand E.function.symbol bound <;> rfl

/-- The condition of a counting loop compares the counter with the limit. -/
theorem Ready.compares (S : Setting p E ctx final f) {home header exit bound scalar why given store}
    (h : Ready ctx f callers (home :: homes) locals s (place + 1) store m)
    (hu : u = s.computed scalar (.move home.register) why) (hcode : code = s.computes scalar (.move home.register) ++
      u.computes .boolean (.compare .lt (s.fresh scalar) bound))
    (hhas : f.Has place (CodeTree.loop header exit code (u.fresh .boolean) code').operations)
    (hbound : bound ∈ s.draft.registers) (hgiven : m.active.registers.get? bound.id = given) :
    m.Follows p E.strict E.fuel (fun b after n =>
      n.Stands f callers (if b then place + code.size + 2
        else place + (CodeTree.loop header exit code (u.fresh .boolean) code').size) after ∧
      Keeps (· ∈ s.draft.registers) m.active.registers n.active.registers)
      ((E.below given home.name locals).result store) := by
  have hfound : (home :: homes).find? (·.name == home.name) = some home := by simp
  obtain ⟨x, hx, -, hvalue⟩ := h.held.lookup hfound
  have hsound : u.Sound ctx := by
    rw [hu]
    refine h.sound.computed ?_ trivial trivial
    simp [mentions, reads, writes, h.housed.registers home (.head _)]
  have hsu : s.Grows u := hu ▸ (State.Grows.refl s).computed _ _ _
  have hcondition := hhas.conditionCode
  rw [hcode] at hcondition
  have hsize : code.size = 2 := hcode ▸ rfl
  have hmoves : m.Follows p E.strict E.fuel (Gives f callers s (s.fresh scalar) (place + 1 + 1) m.active.registers)
      ((of (demand E.function.symbol (some x.value)) >>= fun v => pure (some v)).result store) :=
    h.sound.gives h.stands hcondition.first rfl (corresponds_demand (S.symbol_eq h.stands) hvalue)
  intro hadmits
  obtain ⟨_, n, hsteps, hn⟩ := hmoves hadmits
  rw [below_eq hx, ← bind_pure (of _)]
  refine (Follows.le ?_ (Nat.sub_le ..)).after hsteps hadmits
  refine (hn.stands.computes hcondition.second Activation.truth rfl ?_).bind fun {b _ k} hk hadmits => ?_
  · rw [map_bind, Activation.get_eq_ok.mpr hn.value]
    refine (corresponds_demand (S.symbol_eq hn.stands) ((hn.keeps _ hbound).trans hgiven)).bind fun y => ?_
    rw [map_eq_pure_bind]
    exact (Corresponds.step _).bind fun b => .pure _
  · obtain ⟨rfl, hk, hwrote⟩ := hk
    have hgives := hsound.gives_of_wrote hk hwrote
    have hchecks : k.Follows p E.strict E.fuel _ _ := (hk.at_place (by rw [hsize])).checks S.labels hhas hgives.value
    obtain ⟨_, l, hsteps', -, hl, hregs⟩ := hchecks hadmits
    refine ⟨_, l, hsteps', ?_, hregs ▸ hn.keeps.trans hgives.keeps fun _ => hsu.mem⟩
    cases b with
    | true | false => exact hl

/-- The rounds of a counting loop. The limit stays in its register, since no variable lives there. -/
theorem Ready.counts (S : Setting p E ctx final f) {home header exit bound scalar why given}
    (h : Ready ctx f callers (home :: homes) locals s (place + 1) store m)
    (hu : u = s.computed scalar (.move home.register) why) (hcode : code = s.computes scalar (.move home.register) ++
      u.computes .boolean (.compare .lt (s.fresh scalar) bound))
    (hhas : f.Has place (CodeTree.loop header exit code (u.fresh .boolean)
      (code' ++ .plain (.step .increment home.register))).operations) (hbound : Spare (home :: homes) s bound)
    (hgiven : m.active.registers.get? bound.id = given) (hnumeric : home.register.type.isNumeric = true)
    (ht : t.Sound ctx) (hst : s.Grows t) (hscope : t.draft.scope = s.draft.scope)
    (hbody : Runs p E.strict E.fuel ctx f callers (home :: homes) t (place + code.size + 2) code' x) :
    m.Follows p E.strict E.fuel (Arrives f callers (place + (CodeTree.loop header exit code (u.fresh .boolean)
        (code' ++ .plain (.step .increment home.register))).size) (Remains [] (home :: homes) s m.active.registers))
      ((loop (E.below given home.name) (E.round home.name x) E.fuel locals).result store) := by
  refine Stands.loops (I := Remains [] (home :: homes) s m.active.registers)
    (J := Remains [] (home :: homes) s m.active.registers) S.labels hhas (fun {n locals _} hn hremains => ?_)
    (fun {n locals _} hn hremains => ?_) (Nat.le_refl _) h.stands (h.remains (.refl _ _))
  · have hready := h.again hn hremains
    refine (hready.compares S hu hcode hhas hbound.1 ((hremains.keeps bound hbound).trans hgiven)).mono
      fun {b _ k} hk => ?_
    have hremains := (hready.remains hk.2).later hremains.keeps (.refl s)
    cases b with
    | true | false => exact ⟨hk.1, hremains⟩
  · have hready : Ready ctx f callers (home :: homes) locals t _ _ n :=
      ⟨ht, h.housed.grown hst hscope, hremains.held, hn⟩
    have hhome : t.draft.scope.get? home.name = some home.register := by simp [hready.housed.scope]
    refine (hbody.block hready).bind fun {flow _ k} hk => ?_
    cases flow with
    | returns => exact .done hk
    | goesOn after =>
      refine ((hready.again hk.1 hk.2).steps S hhome hnumeric hhas.bodyCode.second).bind fun {after _ l} hl => ?_
      have hkeeps := hremains.keeps.trans hk.2.keeps fun r hr => ⟨hst.mem hr.1, hr.2⟩
      exact .done ⟨hl.1.at_place (by simp [Nat.add_assoc]), hl.2.later hkeeps hst⟩

/-- A counting loop is followed if its body is. -/
theorem LowersForHead.runs (S : Setting p E ctx final f)
    (h : LowersForHead ctx name type first limit s counter header exit code code' test t) (hs : s.Sound ctx)
    (hgrows : t.shared.Grows final) (hfirst : first.isResolved E.module (homes.map Home.entry) = true)
    (hlimit : limit.isResolved E.module (homes.map Home.entry) = true) (hhas : f.Has place
      (code ++ .loop header exit code' test (code'' ++ .plain (.step .increment counter))).operations)
    (hbody : Runs p E.strict E.fuel ctx f callers (⟨name, type, counter⟩ :: homes) t
      (place + code.size + code'.size + 2) code'' x) :
    Runs p E.strict E.fuel ctx f callers homes s place
      (code ++ .loop header exit code' test (code'' ++ .plain (.step .increment counter)))
      (E.count name type first limit x) := by
  obtain ⟨ht, -, -, hnumeric⟩ := h.sound hs
  intro _ _ m hready
  cases h with
  | @head t₁ u v w start bound counter current scalar _ _ code₁ code₂ _ _ _ _ _
      lowerFirst lowerLimit resolved numeric same isCounter isHeader isExit isStarted isCurrent isRead =>
    obtain ⟨ht₁, hst₁, hstart⟩ := lowerFirst.sound hs
    obtain ⟨hu, htu, hbound⟩ := lowerLimit.sound ht₁
    have hsu := hst₁.trans htu
    have hfresh : counter ∉ u.draft.registers := isCounter ▸ fun hmem => hu.fresh_ne hmem scalar rfl
    have hv : v.Sound ctx := isStarted ▸ ((hu.declared _ _).move (State.mem_declared (htu.mem hstart))
      (isCounter ▸ State.fresh_mem_declared ..)).labelled.labelled.label _
    have huv : u.Grows v := isStarted ▸ ((((State.Grows.refl u).declared _ _).emitted _).labelled.labelled).emitted _
    have hvw : v.Grows w := isRead ▸ (State.Grows.refl v).computed _ _ _
    have hugrows := (huv.trans hvw).shared.grows.trans hgrows
    refine (lowerFirst.follows S hready (htu.shared.grows.trans hugrows) hfirst hhas.first.first.first).bind
      fun {given _ n} hn => ?_
    have hready₁ := hready.moved hn.stands hn.keeps ht₁ hst₁ lowerFirst.lays.2
    refine (lowerLimit.follows S hready₁ hugrows hlimit hhas.first.first.second).bind fun {limitGiven _ k} hk => ?_
    have hready₂ := hready₁.moved hk.stands hk.keeps hu htu lowerLimit.lays.2
    rw [S.resolve_bind resolved]
    refine (hk.stands.computes hhas.first.third id rfl ?_).bind fun {value _ l} hl => ?_
    · rw [id_map]
      exact corresponds_demand (S.symbol_eq hk.stands) ((hk.keeps _ hstart).trans hn.value)
    obtain ⟨rfl, hl, hwrote⟩ := hl
    obtain ⟨l', hsteps, hl', hregs⟩ := (hl.at_place (by simp [Nat.add_assoc])).passes hhas.second (p := p)
    subst isCounter isCurrent
    obtain ⟨hheld, hkeeps⟩ := hready₂.declares name type hwrote
    have hready₃ : Ready ctx f callers (⟨name, type, u.fresh scalar⟩ :: homes) _ v _ _ l' :=
      ⟨hv, hready₂.housed.declared hu resolved (isStarted ▸ rfl) (isStarted ▸ rfl), hregs ▸ hheld, hl'⟩
    have hspare : Spare (⟨name, type, u.fresh scalar⟩ :: homes) v bound := by
      refine ⟨huv.mem hbound, forall_mem_cons.mpr ⟨fun heq => ?_, fun home hhome heq => ?_⟩⟩
      · exact hfresh ((show u.fresh scalar = bound from heq) ▸ hbound)
      · exact lowerLimit.register_not_mem ht₁ (heq ▸ hready₁.housed.registers home hhome)
    have hlimit : l'.active.registers.get? bound.id = limitGiven := by
      rw [hregs]
      exact (hkeeps _ hbound).trans hk.value
    refine .after hsteps (((hready₃.counts S isRead rfl hhas.second hspare hlimit hnumeric ht
      ((hvw.computed _ _ _).emitted _) (isRead ▸ rfl) hbody).le (Nat.sub_le ..)).mono fun {flow _ j} hj => ?_)
    cases flow with
    | returns => exact hj
    | goesOn =>
      refine ⟨hj.1.at_place (by simp [Nat.add_assoc]), [⟨name, type, u.fresh scalar⟩], ?_, hj.2.held, fun r hr => ?_⟩
      · rw [forall_mem_singleton]
        exact fun hmem => hfresh (hsu.mem hmem)
      · have hhomes : Spare (⟨name, type, u.fresh scalar⟩ :: homes) v r := by
          refine ⟨(hsu.trans huv).mem hr.1, forall_mem_cons.mpr ⟨fun heq => ?_, hr.2⟩⟩
          exact hfresh ((show u.fresh scalar = r from heq) ▸ hsu.mem hr.1)
        have hkept := (hn.keeps.trans hk.keeps fun _ => hst₁.mem).trans hkeeps fun _ => hsu.mem
        rw [hj.2.keeps r hhomes, hregs, hkept r hr.1]

end

/-! ## Statements -/

theorem LowersAssignment.scope_eq (h : LowersAssignment ctx value target s code t) : t.draft.scope = s.draft.scope := by
  cases h with
  | named lower | global _ _ _ lower => exact lower.lays.2
  | index lowerTarget lower | dereference lowerTarget lower => exact lower.lays.2.trans lowerTarget.lays.2

/-- A part of a choice that is left out is one without statements. -/
theorem execute_conditional (locals : Locals) (cond : Expression) (whenTrue : List Statement)
    (whenFalse : Option (List Statement)) (site : Option Location) :
    E.execute locals (.conditional cond whenTrue whenFalse site) = (do
      if ← E.holds locals cond then block (E.executeAll · whenTrue) locals
      else block (E.executeAll · (whenFalse.getD [])) locals) := by
  cases whenFalse with
  | some => rw [Evaluator.execute, Option.getD_some]
  | none =>
    have hnone : block (E.executeAll · []) locals = pure (.goesOn locals) := by
      simp [block, Evaluator.executeAll, Locals.leave]
    rw [Evaluator.execute, Option.getD_none, hnone]

theorem conditional_isResolved
    (h : Statement.isResolved module scope (.conditional condition whenTrue whenFalse site) = true) :
    condition.isResolved module scope = true ∧ blockResolved module scope whenTrue = true ∧
      blockResolved module scope (whenFalse.getD []) = true := by
  cases whenFalse <;> simp_all [Statement.isResolved, blockResolved]

mutual

theorem LowersStatement.follows (S : Setting p E ctx final f) {homes locals stmt s t code place store m} :
    LowersStatement ctx stmt s code t → Ready ctx f callers homes locals s place store m →
      t.shared.Grows final → stmt.isResolved E.module (homes.map Home.entry) = true →
      f.Has place code.operations →
      m.Follows p E.strict E.fuel (Arrives f callers (place + code.size) fun after registers =>
          ∃ added, Adds ctx homes added stmt.declares s t ∧
            Remains added homes s m.active.registers after registers)
        ((E.execute locals stmt).result store)
  | .initialized lower resolved _ isHome, h, hgrows, hres, hhas => by
    subst isHome
    obtain ⟨ht, hst, -⟩ := lower.sound h.sound
    rw [Evaluator.execute]
    refine (lower.follows S h hgrows hres hhas.first).bind fun {given _ n} hn => ?_
    rw [S.resolve_bind resolved]
    have hready := h.moved hn.stands hn.keeps ht hst lower.lays.2
    refine (hn.stands.computes hhas.second id rfl ?_).bind fun {v _ k} hk => ?_
    · rw [id_map]
      exact corresponds_demand (S.symbol_eq hn.stands) hn.value
    · obtain ⟨rfl, hk, hwrote⟩ := hk
      obtain ⟨hheld, hkeeps⟩ := hready.declares _ _ hwrote
      refine .done ⟨hk.at_place (by simp [Nat.add_assoc]), [_], (hready.adds resolved).since hst, hheld, fun r hr => ?_⟩
      exact (hkeeps r (hst.mem hr.1)).trans (hn.keeps r hr.1)
  | .zeroed resolved _ isHome, h, _, _, hhas => by
    subst isHome
    rw [Evaluator.execute, S.resolve_bind resolved]
    obtain ⟨n, hsteps, hn, hregs⟩ := h.stands.goesOn hhas rfl (p := p) rfl
    obtain ⟨hheld, hkeeps⟩ := h.declares _ _ (wrote_of_eq hregs)
    exact .after hsteps (.done ⟨hn.silent, [_], h.adds resolved, hheld, fun r hr => hkeeps r hr.1⟩)
  | .assignment lower, h, hgrows, hres, hhas => by
    obtain ⟨-, hst⟩ := lower.sound h.sound
    obtain ⟨htarget, hvalue⟩ := and_eq_true_iff.mp hres
    rw [Evaluator.execute]
    refine (lower.follows S h hgrows htarget hvalue hhas).bind fun {after _ n} hn => ?_
    exact .done ⟨hn.1, [], h.housed.adds_nil hst lower.scope_eq, hn.2⟩
  | .increment bound numeric, h, _, _, hhas | .decrement bound numeric, h, _, _, hhas => by
    rw [Evaluator.execute]
    refine (h.steps S bound numeric hhas).bind fun {after _ n} hn => ?_
    exact .done ⟨hn.1, [], h.housed.adds_nil ((State.Grows.refl s).emitted _) rfl, hn.2⟩
  | .call lower, h, hgrows, hres, hhas => by
    obtain ⟨-, hst, -⟩ := lower.sound h.sound
    rw [Evaluator.execute, Evaluator.evaluate]
    refine (lower.follows S h hgrows hres hhas).bind fun {_ _ n} hn => ?_
    exact .done ⟨hn.1, [], h.housed.adds_nil hst lower.lays.2, h.remains hn.2.2⟩
  | .expression _ lower, h, hgrows, hres, hhas => by
    obtain ⟨-, hst, -⟩ := lower.sound h.sound
    rw [Evaluator.execute]
    refine (lower.follows S h hgrows hres hhas).bind fun {_ _ n} hn => ?_
    exact .done ⟨hn.stands, [], h.housed.adds_nil hst lower.lays.2, h.remains hn.keeps⟩
  | .ret lower, h, hgrows, hres, hhas => by
    rw [Evaluator.execute]
    refine (lower.follows S h hgrows hres hhas.first).bind fun {given _ n} hn => ?_
    rw [S.symbol]
    refine (hn.stands.returns hhas.second hn.value).bind fun {v _ k} hk => ?_
    obtain ⟨rfl, hk⟩ := hk
    exact .done hk
  | .retNone, h, _, _, hhas => by
    rw [Evaluator.execute]
    exact .done (h.stands.returns_nothing hhas)
  | @LowersStatement.conditional _ _ _ _ _ _ t t' u u' _ _ _ _ _ _ _ _ _ _ _ _ _ lowerTest startsTrue lowerTrue
      startsFalse lowerFalse, h, hgrows, hres, hhas => by
    have hs := h.sound.labelled.labelled
    have hslabelled := (State.Grows.refl s).labelled.labelled
    obtain ⟨ht, hst, htest⟩ := lowerTest.sound hs
    have ht' : t'.Sound ctx := startsTrue ▸ ht.gotoIfFalse htest _
    have htt' : t.Grows t' := startsTrue ▸ (State.Grows.refl t).emitted _
    obtain ⟨hu, htu⟩ := lowerTrue.sound ht'
    have hu' : u'.Sound ctx := startsFalse ▸ ((hu.rescoped ht' htu).goto _).label _
    have huu' : u.Grows u' := startsFalse ▸ (((State.Grows.refl u).rescoped _).emitted _).emitted _
    obtain ⟨-, huv⟩ := lowerFalse.sound hu'
    have hscope : t'.draft.scope = t.draft.scope := startsTrue ▸ rfl
    have hscope' : u'.draft.scope = t.draft.scope := by
      rw [startsFalse]
      exact hscope
    have htu' := (htt'.trans htu).trans huu'
    have hugrows := (huu'.trans huv).shared.grows.trans hgrows
    obtain ⟨hcond, htrue, hfalse⟩ := conditional_isResolved hres
    rw [execute_conditional]
    refine (lowerTest.chooses S (h.moved h.stands (.refl _ _) hs hslabelled rfl)
      ((htt'.trans htu).shared.grows.trans hugrows) hcond hhas ht' htt' hscope hu' htu' hscope'
      (lowerTrue.runs S ht' hugrows htrue hhas.second.trueCode)
      (lowerFalse.runs S hu' hgrows hfalse hhas.second.falseCode)).mono fun {flow _ n} hn => ?_
    cases flow with
    | returns => exact hn
    | goesOn =>
      have hgrown := (hslabelled.trans hst).trans (htu'.trans huv)
      exact ⟨hn.1, [], h.housed.adds_nil ((hgrown.rescoped _).emitted _) (hscope'.trans lowerTest.lays.2),
        hn.2.since (.refl _ _) hslabelled⟩
  | @LowersStatement.whileLoop _ _ _ _ _ s₁ t t' _ _ _ _ _ _ _ _ _ _ _ _ isStarted lowerTest isBody
      lowerBody, h, hgrows, hres, hhas => by
    have hs₁ : s₁.Sound ctx := isStarted ▸ h.sound.labelled.labelled.label _
    have hss₁ : s.Grows s₁ := isStarted ▸ (State.Grows.refl s).labelled.labelled.emitted _
    obtain ⟨ht, hst, htest⟩ := lowerTest.sound hs₁
    have ht' : t'.Sound ctx := isBody ▸ ht.gotoIfFalse htest _
    have htt' : t.Grows t' := isBody ▸ (State.Grows.refl t).emitted _
    obtain ⟨_, htu⟩ := lowerBody.sound ht'
    have hscope : t'.draft.scope = t.draft.scope := isBody ▸ rfl
    have hscope₁ : s₁.draft.scope = s.draft.scope := isStarted ▸ rfl
    obtain ⟨hcond, hbody⟩ := and_eq_true_iff.mp hres
    rw [Evaluator.execute]
    obtain ⟨n, hsteps, hn, hregs⟩ := h.stands.passes hhas (p := p)
    have hkeeps : Keeps (· ∈ s.draft.registers) m.active.registers n.active.registers := hregs ▸ .refl _ _
    refine .after hsteps (((lowerTest.repeats S (h.moved hn hkeeps hs₁ hss₁ hscope₁)
      ((htt'.trans htu).shared.grows.trans hgrows) hcond hhas ht' htt' hscope
      (lowerBody.runs S ht' hgrows hbody hhas.bodyCode)).le (Nat.sub_le ..)).mono fun {flow _ k} hk => ?_)
    cases flow with
    | returns => exact hk
    | goesOn =>
      have hgrown := (hss₁.trans hst).trans (htt'.trans htu)
      exact ⟨hk.1, [], h.housed.adds_nil (((hgrown.rescoped _).emitted _).emitted _)
        (hscope.trans (lowerTest.lays.2.trans hscope₁)), hk.2.since hkeeps hss₁⟩
  | @LowersStatement.forLoop _ name type _ _ body _ _ _ _ counter _ _ _ _ _ _ _ _ _ lowerHead lowerBody,
      h, hgrows, hres, hhas => by
    obtain ⟨ht, hst, -⟩ := lowerHead.sound h.sound
    obtain ⟨-, htu⟩ := lowerBody.sound ht
    obtain ⟨hbounds, hbody⟩ := and_eq_true_iff.mp hres
    obtain ⟨hfirst, hlimit⟩ := and_eq_true_iff.mp hbounds
    have hbody : blockResolved E.module (((⟨name, type, counter⟩ : Home) :: homes).map Home.entry) body = true := hbody
    rw [Evaluator.execute]
    have hruns := lowerHead.runs S h.sound (htu.shared.grows.trans hgrows) hfirst hlimit hhas
      (lowerBody.runs S ht hgrows hbody hhas.second.bodyCode.first)
    refine (hruns.block h).mono fun {flow _ n} hn => ?_
    cases flow with
    | returns => exact hn
    | goesOn =>
      refine ⟨hn.1, [], h.housed.adds_nil ?_ rfl, hn.2⟩
      exact ((((hst.trans htu).rescoped _).emitted _).emitted _).emitted _ |>.rescoped _

theorem LowersStatements.runs (S : Setting p E ctx final f) {homes stmts s t code place} :
    LowersStatements ctx stmts s code t → s.Sound ctx → t.shared.Grows final →
      blockResolved E.module (homes.map Home.entry) stmts = true → f.Has place code.operations →
      Runs p E.strict E.fuel ctx f callers homes s place code (E.executeAll · stmts)
  | .nil, _, _, _, _ => by
    intro _ _ m h
    beta_reduce
    rw [Evaluator.executeAll]
    exact .done ⟨h.stands, [], nofun, h.remains (.refl _ _)⟩
  | .cons first remaining, hs, hgrows, hres, hhas => by
    obtain ⟨ht, hst⟩ := first.sound hs
    obtain ⟨-, htu⟩ := remaining.sound ht
    obtain ⟨hfirst, hrest⟩ := and_eq_true_iff.mp hres
    intro _ _ m h
    beta_reduce
    rw [Evaluator.executeAll]
    refine (first.follows S h (htu.shared.grows.trans hgrows) hfirst hhas.first).bind fun {flow _ n} hn => ?_
    cases flow with
    | returns => exact .done hn
    | goesOn after =>
      obtain ⟨hn, added, hadds, hremains⟩ := hn
      have hready : Ready ctx f callers (added ++ homes) after _ _ _ n := ⟨ht, hadds.housed, hremains.held, hn⟩
      rw [← hadds.entries, ← map_append] at hrest
      refine (remaining.runs S ht hgrows hrest hhas.second hready).mono fun {flow _ k} hk => ?_
      cases flow with
      | returns => exact hk
      | goesOn =>
        obtain ⟨hk, added', hfresh, hremains'⟩ := hk
        refine ⟨hk.at_place (by simp [Nat.add_assoc]), added' ++ added, ?_, ?_, ?_⟩
        · rw [forall_mem_append]
          exact ⟨fun home hhome hmem => hfresh home hhome (hst.mem hmem), hadds.fresh⟩
        · rw [append_assoc]
          exact hremains'.held
        · refine hremains.keeps.trans hremains'.keeps fun r hr => ⟨hst.mem hr.1, forall_mem_append.mpr ⟨?_, hr.2⟩⟩
          exact fun home hhome heq => hadds.fresh home hhome (heq ▸ hr.1)

end

end Retarget.Lower
