import Retarget.Proofs.Code.Tree
import Retarget.Proofs.Meaning.Evaluation
import Retarget.Proofs.Run.Arithmetic

/-!
# Machines that follow evaluations

A machine follows an evaluation if it comes to where the result says, with the same memory and output; if it ends
its run where the evaluation stops, for the same reason; and if it makes as many steps as there was fuel where the
fuel did not last. Evaluations that are put together are followed piece by piece.
-/
namespace Retarget

open Activation List Source Source.Eval

/-! ## Results of evaluations -/

namespace Source

/-- The machine that stops so does for the reason that evaluation halts. Only the machine can name a register. -/
def Reason.Reported : Reason → Stop → Prop
  | .exhausted, _ => False
  | .stopped stop, other => other = stop
  | .pointerGiven, other => ∃ register, other = .failure (.holdsPointer register)
  | .numberGiven, other => ∃ register, other = .failure (.holdsNumber register)
  | .nothingGiven function, other =>
    match function.text with
    | .ok text => ∃ register, other = .failure (.uninitialized register text)
    | .error fault => other = .fault fault

theorem Reason.reported_stopped (stop : Stop) : Reason.Reported (.stopped stop) stop := rfl

namespace Eval

variable {α β : Type}

def result (x : Eval α) (store : Store) : Except Reason α × Store := x.run.run store

@[simp] theorem result_pure (a : α) (store : Store) : (pure a : Eval α).result store = (.ok a, store) := rfl

@[simp] theorem result_throw (halt : Reason) (store : Store) :
    (throw halt : Eval α).result store = (.error halt, store) := rfl

@[simp] theorem result_of (x : Except Reason α) (store : Store) : (of x).result store = (x, store) := rfl

theorem result_bind (x : Eval α) (f : α → Eval β) (store : Store) :
    (x >>= f).result store = match x.result store with
      | (.ok a, store) => (f a).result store
      | (.error halt, store) => (.error halt, store) := by
  show StateT.bind x.run (ExceptT.bindCont f) store = _
  unfold StateT.bind result
  show (match x.run.run store with | (r, store) => (ExceptT.bindCont f r).run store) = _
  rcases x.run.run store with ⟨_ | a, _⟩ <;> rfl

/-- Two values can be asked for at once. -/
theorem of_pair {γ : Type} (x : Except Reason α) (y : Except Reason β) (f : α → β → Eval γ) :
    (of x >>= fun a => of y >>= f a) = of (do return (← x, ← y)) >>= fun pair => f pair.1 pair.2 := by
  cases x with
  | error => rfl
  | ok => cases y <;> rfl

/-- What is known to give a result can be left out. -/
theorem check_bind (h : x = .ok a) (f : α → Eval β) : (check x >>= f) = f a := by
  subst h
  rfl

theorem received_void (function : Symbol) (returned : Option Value) : received function .void returned = pure none :=
  rfl

theorem received_some (h : type ≠ .void) (function : Symbol) (value : Value) :
    received function type (some value) = pure (some value) := by
  unfold received
  rw [if_neg h]

theorem received_none (h : type ≠ .void) {function} (htext : function.text = .ok text) :
    received function type none = throw (.stopped (.failure (.noValue text))) := by
  unfold received
  rw [if_neg h, htext]
  rfl

theorem result_load (block : String) (offset : Number) (store : Store) :
    (load block offset).result store =
      ((store.memory.read block offset).mapError fun failure => .stopped (.failure failure), store) := by
  show ((Except.mapError _ (Except.mapError _ _)), store) = _
  cases store.memory.read block offset <;> rfl

theorem result_save (block : String) (offset : Number) (value : Value) (store : Store) :
    (save block offset value).result store = match store.memory.write block offset value with
      | .ok memory => (.ok (), { store with memory })
      | .error failure => (.error (.stopped (.failure failure)), store) := by
  show ((step (Except.mapError _ (store.memory.write block offset value))) >>= _ : Eval Unit).result store = _
  cases store.memory.write block offset value <;> rfl

theorem result_print (routine : Routine) (values : List Value) (store : Store) :
    (print routine values).result store = match routine.print store.memory values with
      | (units, none) => (.ok (), { store with output := store.output ++ units })
      | (units, some stop) => (.error (.stopped stop), { store with output := store.output ++ units }) := by
  have hget : (get : Eval Store).result store = (.ok store, store) := rfl
  rw [print, result_bind, hget]
  dsimp only
  rcases routine.print store.memory values with ⟨_, _ | _⟩ <;> rfl

end Eval

end Source

/-! ## Conversions to the same type -/

open Number in
theorem evaluateConversion_of_holds {type : Ty} (h : type.Holds n) :
    evaluateConversion (.dyadic n 0) type type = .ok (.dyadic n 0) := by
  have hmul : (dyadic n 0).mul (.twoPow (type.shift - type.shift)) = .dyadic n 0 := by
    rw [Nat.sub_self]
    refine (mul_dyadic n 1).trans ?_
    rw [Int.mul_one, round_whole (Nat.le_trans h.natAbs_le (by decide))]
  unfold evaluateConversion
  match type with
  | .integer .. | .fixed _ =>
    simp only [reduceCtorEq, if_false, Ty.isPointer, Bool.or_self, Bool.false_eq_true, Nat.le_refl, if_true, hmul]
    exact Ty.wrap_of_holds h
  | .boolean =>
    rw [if_pos rfl, isZero_dyadic]
    rcases h with rfl | rfl <;> rfl

/-- Converting a number in range to the type that it has changes nothing, computed or not. -/
theorem Source.convert_of_holds (function : Symbol) (strict : Bool) {type : Ty} (h : type.Holds n) :
    convert function (some (.number (.dyadic n 0))) strict type type = .ok (.number (.dyadic n 0)) := by
  unfold convert
  split
  · rfl
  · have hpointer : type.isPointer = false := by
      cases type <;> first | rfl | exact h.elim
    rw [hpointer]
    show ((evaluateConversion (.dyadic n 0) type type).step.mapError Reason.stopped >>= fun x =>
      pure (Value.number x)) = _
    rw [evaluateConversion_of_holds h]
    rfl

/-! ## Computations with values and with registers -/

/-- Both computations give the same, or both stop for one reason. -/
def Corresponds {α : Type} : Except Reason α → Except Stop α → Prop
  | .ok a, .ok b => a = b
  | .error halt, .error stop => halt.Reported stop
  | _, _ => False

namespace Corresponds

variable {α β : Type} {x : Except Reason α} {y : Except Stop α}

theorem pure (a : α) : Corresponds (pure a) (pure a) := rfl

theorem step (y : Except Stop α) : Corresponds (y.mapError .stopped) y := by
  cases y <;> rfl

theorem bind {f : α → Except Reason β} {g : α → Except Stop β} (h : Corresponds x y)
    (hf : ∀ a, Corresponds (f a) (g a)) : Corresponds (x >>= f) (y >>= g) := by
  cases x with
  | ok a =>
    cases y with
    | ok b =>
      obtain rfl : a = b := h
      exact hf a
    | error => exact h.elim
  | error =>
    cases y with
    | ok => exact h.elim
    | error => exact h

theorem ite {c : Prop} [Decidable c] (h : Corresponds x y) (h' : Corresponds x' y') :
    Corresponds (if c then x else x') (if c then y else y') := by
  split
  · exact h
  · exact h'

end Corresponds

section
variable {a : Activation} {function : Symbol} (ha : a.procedure.symbol = function) {r : Register}
  {given : Option Value} (hr : a.registers.get? r.id = given)
include ha hr

theorem corresponds_demand : Corresponds (demand function given) (a.get r) := by
  subst ha hr
  unfold demand Activation.get
  cases a.registers.get? r.id with
  | some => rfl
  | none =>
    dsimp only
    cases ht : a.procedure.symbol.text with
    | ok text =>
      show Reason.Reported (.nothingGiven a.procedure.symbol) (.failure (.uninitialized r.id text))
      simp only [Reason.Reported, ht]
      exact ⟨r.id, rfl⟩
    | error fault =>
      show Reason.Reported (.nothingGiven a.procedure.symbol) (.fault fault)
      simp only [Reason.Reported, ht]

theorem corresponds_number : Corresponds (demandNumber function given) (Operation.number a.get r) := by
  refine (corresponds_demand ha hr).bind fun v => ?_
  cases v with
  | number => exact rfl
  | pointer | null => exact ⟨_, rfl⟩

theorem corresponds_pointer : Corresponds (demandPointer function given) (Operation.pointer a.get r) := by
  refine (corresponds_demand ha hr).bind fun v => ?_
  cases v with
  | number => exact ⟨_, rfl⟩
  | pointer | null => exact rfl

theorem corresponds_place : Corresponds (demandPlace function given) (Operation.place a.get r) := by
  refine (corresponds_pointer ha hr).bind fun v => ?_
  cases v with
  | number | pointer | null => exact rfl

end

theorem corresponds_mapM {a : Activation} {function} (ha : a.procedure.symbol = function) {regs given}
    (h : Forall₂ (fun r v => a.registers.get? r.id = v) regs given) :
    Corresponds (given.mapM (demand function)) (regs.mapM a.get) := by
  induction h with
  | nil => exact .pure []
  | cons hr _ ih =>
    rw [mapM_cons, mapM_cons]
    exact (corresponds_demand ha hr).bind fun _ => ih.bind fun _ => .pure _

/-! ## Following -/

variable {α β : Type} {p : Program} {fuel : Nat} {m n : Machine} {store : Store} {f g : Procedure}
  {callers : List Suspended} {place : Nat} {operation : Operation} {operations operations' : List Operation}

namespace Machine

/-- The numbers that the machine reads next are in the ranges of their types. Only strict conversions need that. -/
def Admits (strict : Bool) (m : Machine) : Prop :=
  strict = true → ∀ {i r v}, m.next? = some i → r ∈ i.operation.reads → m.active.registers.get? r.id = some v →
    r.type.IsNumber → ∃ n, v = .number (.dyadic n 0) ∧ r.type.Holds n

/-- The machine comes to where the outcome of an evaluation says, or ends its run where the evaluation halts. -/
def Follows (p : Program) (strict : Bool) (fuel : Nat) (m : Machine) (Post : α → Store → Machine → Prop)
    (outcome : Except Reason α × Store) : Prop :=
  (∀ {k n}, Steps p k m n → n.Admits strict) →
    match outcome with
    | (.ok a, store) => ∃ k n, Steps p k m n ∧ Post a store n
    | (.error halt, store) => (halt = .exhausted ∧ ∃ k n, fuel ≤ k ∧ Steps p k m n) ∨
      ∃ k n w stop, Steps p k m n ∧ n.advance p = .ended (.stopped w stop) ∧ halt.Reported stop ∧
        w.output = store.output

namespace Follows

variable {Post Post' : α → Store → Machine → Prop} {outcome : Except Reason α × Store}

theorem done (h : Post a store m) : m.Follows p strict fuel Post (.ok a, store) := fun _ => ⟨0, m, .refl m, h⟩

theorem assuming (h : m.Admits strict → m.Follows p strict fuel Post outcome) : m.Follows p strict fuel Post outcome :=
  fun hadmits => h (hadmits (.refl m)) hadmits

section
variable (h : m.Follows p strict fuel Post outcome)
include h

/-- The machine may go on a little from where it has come to. -/
theorem steps
    (hpost : ∀ {a store n}, Post a store n → ∃ k n', Steps p k n n' ∧ Post' a store n') :
    m.Follows p strict fuel Post' outcome := by
  intro hadmits
  have h := h hadmits
  obtain ⟨_ | a, _⟩ := outcome
  · exact h
  · obtain ⟨k, n, hsteps, hn⟩ := h
    obtain ⟨l, n', hrest, hn'⟩ := hpost hn
    exact ⟨k + l, n', hsteps.trans hrest, hn'⟩

theorem mono (hpost : ∀ {a store n}, Post a store n → Post' a store n) :
    m.Follows p strict fuel Post' outcome :=
  h.steps fun hn => ⟨0, _, .refl _, hpost hn⟩

/-- Where the machine has come to, the result is known. -/
theorem known :
    m.Follows p strict fuel (fun a after n => outcome = (.ok a, after) ∧ Post a after n) outcome := by
  intro hadmits
  have h := h hadmits
  obtain ⟨_ | a, _⟩ := outcome
  · exact h
  · obtain ⟨k, n, hsteps, hn⟩ := h
    exact ⟨k, n, hsteps, rfl, hn⟩

end

/-- Steps made before count, too. -/
theorem after (hsteps : Steps p k m n) (h : n.Follows p strict (fuel - k) Post outcome) :
    m.Follows p strict fuel Post outcome := by
  intro hadmits
  have h := h fun hrest => hadmits (hsteps.trans hrest)
  obtain ⟨halt | a, _⟩ := outcome
  · rcases h with ⟨hhalt, l, r, hle, hrest⟩ | ⟨l, r, w, stop, hrest, hend⟩
    · exact Or.inl ⟨hhalt, k + l, r, by omega, hsteps.trans hrest⟩
    · exact Or.inr ⟨k + l, r, w, stop, hsteps.trans hrest, hend⟩
  · obtain ⟨l, r, hrest, hr⟩ := h
    exact ⟨k + l, r, hsteps.trans hrest, hr⟩

theorem le (h : m.Follows p strict fuel' Post outcome) (hle : fuel ≤ fuel') : m.Follows p strict fuel Post outcome := by
  intro hadmits
  have h := h hadmits
  obtain ⟨_ | a, _⟩ := outcome
  · rcases h with ⟨hhalt, k, n, hk, hsteps⟩ | h
    · exact Or.inl ⟨hhalt, k, n, Nat.le_trans hle hk, hsteps⟩
    · exact Or.inr h
  · exact h

/-- One evaluation after another. -/
theorem bind {x} {f : α → Eval β} {Q : β → Store → Machine → Prop} (h : m.Follows p strict fuel Post (x.result store))
    (hf : ∀ {a store n}, Post a store n → n.Follows p strict fuel Q ((f a).result store)) :
    m.Follows p strict fuel Q ((x >>= f).result store) := by
  intro hadmits
  have h := h hadmits
  rw [result_bind]
  generalize x.result store = outcome at h
  obtain ⟨_ | a, _⟩ := outcome
  · exact h
  · obtain ⟨k, n, hsteps, hn⟩ := h
    exact ((hf hn).le (Nat.sub_le ..)).after hsteps hadmits

end Follows

end Machine

/-! ## Places in the code -/

/-- The procedure has the operations from a place on. -/
def Procedure.Has (f : Procedure) (place : Nat) (operations : List Operation) : Prop :=
  operations <+: (f.instructions.map (·.operation)).drop place

namespace Procedure.Has

theorem left (h : f.Has place (operations ++ operations')) : f.Has place operations :=
  (prefix_append _ _).trans h

theorem right (h : f.Has place (operations ++ operations')) : f.Has (place + operations.length) operations' := by
  obtain ⟨rest, hrest⟩ := h
  refine ⟨rest, ?_⟩
  rw [← drop_drop, ← hrest, append_assoc, drop_left]

theorem tail (h : f.Has place (operation :: operations)) : f.Has (place + 1) operations :=
  right (show f.Has place ([operation] ++ operations) from h)

theorem head (h : f.Has place (operation :: operations)) :
    ∃ i, f.instructions[place]? = some i ∧ i.operation = operation := by
  obtain ⟨_, hrest⟩ := h
  have hget := congrArg (·[0]?) hrest
  simp only [cons_append, getElem?_cons_zero, getElem?_drop, Nat.add_zero, getElem?_map] at hget
  exact Option.map_eq_some_iff.mp hget.symm

/-- A jump to a label that has its name for itself leads there. -/
theorem labelPlace? (h : f.Has place (.label name :: ops))
    (hlabels : (f.instructions.filterMap (·.operation.labelName?)).Nodup) : f.labelPlace? name = some place := by
  obtain ⟨i, hi, hop⟩ := h.head
  exact labelPlace?_of_nodup hlabels hi hop

end Procedure.Has

namespace Machine

/-- The machine is at a place of a procedure, with the memory and the output of a store. -/
structure Stands (f : Procedure) (callers : List Suspended) (place : Nat) (store : Store) (m : Machine) : Prop where
  procedure : m.active.procedure = f
  position : m.active.position = place
  callers : m.callers = callers
  memory : m.world.memory = store.memory
  output : m.world.output = store.output

/-- Between the machines one register was written; without a value it was left unassigned. -/
def Wrote (r : Register) (v : Option Value) (m n : Machine) : Prop :=
  ∀ id, n.active.registers.get? id = if r.id = id then v else m.active.registers.get? id

theorem wrote_of_eq (h : n.active.registers = (m.active.written (some (r, v))).registers) :
    Wrote r v m n := fun id => by
  rw [h, get?_written]

/-- An effect that prints nothing leaves the output as it is. -/
theorem Stands.silent {memory output} (h : m.Stands f callers place ⟨memory, output ++ []⟩) :
    m.Stands f callers place ⟨memory, output⟩ := by
  rwa [append_nil] at h

namespace Stands

variable (hm : m.Stands f callers place store) (hhas : f.Has place (operation :: operations))
include hm hhas

theorem react_eq : m.reaction = m.active.tick.follow (operation.outcome m.active.get store.memory) := by
  obtain ⟨i, hi, rfl⟩ := hhas.head
  have hnext : m.active.next? = some i := by rw [Activation.next?, hm.procedure, hm.position, hi]
  rw [reaction, react_eq hnext, hm.memory]

/-- What is moved to a register of its own type is in range, so that converting it changes nothing. -/
theorem convert_eq {r dest} (hop : operation = .move r dest) (hgiven : m.active.registers.get? r.id = given)
    (hadmits : m.Admits strict) (function : Symbol) :
    convert function given strict r.type r.type = demand function given := by
  obtain ⟨i, hi, rfl⟩ := hhas.head
  have hnext : m.next? = some i := by rw [next?, hm.procedure, hm.position, hi]
  cases given with
  | none =>
    unfold convert
    split
    · rfl
    · split <;> rfl
  | some v =>
    by_cases hnumber : strict = true ∧ (r.type.isNumeric = true ∨ r.type = .boolean)
    · have htype : r.type.IsNumber :=
        hnumber.2.elim Ty.isNumber_of_isNumeric fun hboolean => hboolean ▸ ⟨_, rfl⟩
      obtain ⟨n, rfl, hholds⟩ := hadmits hnumber.1 hnext (hop ▸ .head _) hgiven htype
      exact convert_of_holds function strict hholds
    · exact if_pos ⟨rfl, hnumber⟩

/-- An operation that goes on is one step. -/
theorem goesOn {e next} (ho : operation.outcome m.active.get store.memory = .goesOn e)
    (hnext : f.GoesTo (place + 1) e.target next) :
    ∃ n, Steps p 1 m n ∧ n.Stands f callers next ⟨e.memory, store.output ++ e.units⟩ ∧
      n.active.registers = (m.active.written e.write).registers := by
  have hmoved : (m.active.tick.written e.write).moved e.target =
      .ok { m.active.tick.written e.write with position := next } := by
    apply Activation.moved_of_goesTo
    rw [Activation.written_procedure, Activation.written_position]
    show m.active.procedure.GoesTo (m.active.position + 1) e.target next
    rwa [hm.procedure, hm.position]
  have hreaction : m.reaction = .goesOn { m.active.tick.written e.write with position := next } e.memory e.units := by
    rw [hm.react_eq hhas, ho]
    simp only [Activation.follow, hmoved]
  refine ⟨_, .single (advance_of_goesOn hreaction), ⟨?_, rfl, hm.callers, rfl, ?_⟩, ?_⟩
  · exact (Activation.written_procedure ..).trans hm.procedure
  · show (e.units.reverse ++ m.world.printed).reverse = _
    rw [List.reverse_append, List.reverse_reverse, ← hm.output]
    rfl
  · rcases e.write with _ | ⟨r, _ | v⟩ <;> rfl

theorem stops (ho : operation.outcome m.active.get store.memory = .stops units stop) :
    ∃ w, m.advance p = .ended (.stopped w stop) ∧ w.output = store.output ++ units := by
  have hreaction : m.reaction = .stops units stop := by rw [hm.react_eq hhas, ho]; rfl
  obtain ⟨w, hend, hprinted⟩ := advance_of_stops (p := p) hreaction
  refine ⟨w, hend, ?_⟩
  rw [World.output, hprinted, reverse_append, reverse_reverse, ← hm.output]
  rfl

/-- Where an operation stops, so does the evaluation that stops for that reason. -/
theorem follows_stops {Post : α → Store → Machine → Prop} {halt}
    (ho : operation.outcome m.active.get store.memory = .stops units stop) (hreported : halt.Reported stop) {after}
    (hafter : after.output = store.output ++ units) : m.Follows p strict fuel Post (.error halt, after) := by
  obtain ⟨w, hend, hw⟩ := hm.stops hhas ho
  exact fun _ => Or.inr ⟨0, m, w, stop, .refl m, hend, hreported, hw.trans hafter.symm⟩

/-- An operation that gives a register a value. -/
theorem computes (toValue : α → Value) {x y r}
    (ho : operation.outcome m.active.get store.memory = Operation.assigns store.memory r y)
    (hxy : Corresponds (toValue <$> x) y) :
    m.Follows p strict fuel (fun a after n => after = store ∧ n.Stands f callers (place + 1) store ∧
      Wrote r (some (toValue a)) m n) ((of x).result store) := by
  cases x with
  | ok a =>
    cases y with
    | error => exact hxy.elim
    | ok v =>
      obtain rfl : toValue a = v := hxy
      obtain ⟨n, hsteps, hn, hregs⟩ := hm.goesOn hhas ho (p := p) rfl
      exact fun _ => ⟨1, n, hsteps, rfl, hn.silent, wrote_of_eq hregs⟩
  | error =>
    cases y with
    | ok => exact hxy.elim
    | error => exact hm.follows_stops hhas ho hxy (append_nil _).symm

/-- An operation that uses what it reads, as the rest of an evaluation does. -/
theorem reads {β : Type} {k : α → Operation.Outcome} {g : α → Eval β} {Post : β → Store → Machine → Prop}
    (ho : operation.outcome m.active.get store.memory = Operation.reading y k) (hxy : Corresponds x y)
    (hk : ∀ a, operation.outcome m.active.get store.memory = k a → m.Follows p strict fuel Post ((g a).result store)) :
    m.Follows p strict fuel Post ((of x >>= g).result store) := by
  rw [result_bind, result_of]
  cases x with
  | ok a =>
    cases y with
    | error => exact hxy.elim
    | ok b =>
      obtain rfl : a = b := hxy
      exact hk a ho
  | error =>
    cases y with
    | ok => exact hxy.elim
    | error => exact hm.follows_stops hhas ho hxy (append_nil _).symm

end Stands

section
variable (hm : m.Stands f callers place store)
include hm

theorem Stands.passes {name} (hhas : f.Has place (.label name :: operations)) :
    ∃ n, Steps p 1 m n ∧ n.Stands f callers (place + 1) store ∧ n.active.registers = m.active.registers := by
  obtain ⟨n, hsteps, hn, hregs⟩ := hm.goesOn hhas rfl (p := p) rfl
  exact ⟨n, hsteps, hn.silent, hregs⟩

theorem Stands.jumps {name target} (hhas : f.Has place (.goto name :: operations))
    (htarget : f.labelPlace? name = some target) :
    ∃ n, Steps p 1 m n ∧ n.Stands f callers target store ∧ n.active.registers = m.active.registers := by
  obtain ⟨n, hsteps, hn, hregs⟩ := hm.goesOn hhas rfl (p := p) htarget
  exact ⟨n, hsteps, hn.silent, hregs⟩

/-- A conditional jump is taken if the number is zero. -/
theorem Stands.tests {r name target given} (hhas : f.Has place (.gotoIfFalse r name :: operations))
    (htarget : f.labelPlace? name = some target) (hgiven : m.active.registers.get? r.id = given) :
    m.Follows p strict fuel (fun x after n => after = store ∧
      n.Stands f callers (if x.isZero then target else place + 1) store ∧ n.active.registers = m.active.registers)
      ((of (demandNumber f.symbol given)).result store) := by
  rw [← bind_pure (of _)]
  refine hm.reads hhas rfl (corresponds_number (congrArg Procedure.symbol hm.procedure) hgiven) fun x ho => ?_
  have hnext : f.GoesTo (place + 1) (if x.isZero then some name else none)
      (if x.isZero then target else place + 1) := by
    split
    · exact htarget
    · rfl
  obtain ⟨n, hsteps, hn, hregs⟩ := hm.goesOn hhas ho (p := p) hnext
  exact fun _ => ⟨1, n, hsteps, rfl, hn.silent, hregs⟩

/-- Loading finds what is stored at the place, or nothing. -/
theorem Stands.loads {addr r given} (hhas : f.Has place (.load addr r :: operations))
    (hgiven : m.active.registers.get? addr.id = given) :
    m.Follows p strict fuel (fun v after n => after = store ∧ n.Stands f callers (place + 1) store ∧ Wrote r v m n)
      ((of (demandPlace f.symbol given) >>= fun (block, offset) =>
        Eval.load block offset).result store) := by
  have hsymbol := congrArg Procedure.symbol hm.procedure
  refine hm.reads hhas rfl (corresponds_place hsymbol hgiven) fun (block, offset) ho => ?_
  dsimp only at ho ⊢
  rw [result_load]
  cases hread : store.memory.read block offset with
  | error failure =>
    rw [hread] at ho
    exact hm.follows_stops hhas ho (Reason.reported_stopped (.failure failure)) (append_nil _).symm
  | ok =>
    rw [hread] at ho
    obtain ⟨n, hsteps, hn, hregs⟩ := hm.goesOn hhas ho (p := p) rfl
    exact fun _ => ⟨1, n, hsteps, rfl, hn.silent, wrote_of_eq hregs⟩

theorem Stands.saves {addr r given given'} (hhas : f.Has place (.store addr r :: operations))
    (hgiven : m.active.registers.get? addr.id = given) (hgiven' : m.active.registers.get? r.id = given') :
    m.Follows p strict fuel
      (fun _ after n => n.Stands f callers (place + 1) after ∧ n.active.registers = m.active.registers)
      ((of (demandPlace f.symbol given) >>= fun (block, offset) =>
        Eval.of (demand f.symbol given') >>= fun value => Eval.save block offset value).result store) := by
  have hsymbol := congrArg Procedure.symbol hm.procedure
  have hread : Corresponds (do return (← demandPlace f.symbol given, ← demand f.symbol given'))
      (do return (← Operation.place m.active.get addr, ← m.active.get r)) :=
    (corresponds_place hsymbol hgiven).bind fun _ => (corresponds_demand hsymbol hgiven').bind fun _ => .pure _
  rw [of_pair]
  refine hm.reads hhas rfl hread fun ((block, offset), value) ho => ?_
  dsimp only at ho ⊢
  rw [result_save]
  cases hwrite : store.memory.write block offset value with
  | error failure =>
    rw [hwrite] at ho
    exact hm.follows_stops hhas ho (Reason.reported_stopped (.failure failure)) (append_nil _).symm
  | ok =>
    rw [hwrite] at ho
    obtain ⟨n, hsteps, hn, hregs⟩ := hm.goesOn hhas ho (p := p) rfl
    exact fun _ => ⟨1, n, hsteps, hn.silent, hregs⟩

theorem Stands.prints {routine registers given}
    (hhas : f.Has place (.call (.routine routine) registers none :: operations))
    (hgiven : Forall₂ (fun r v => m.active.registers.get? r.id = v) registers given) :
    m.Follows p strict fuel
      (fun _ after n => n.Stands f callers (place + 1) after ∧ n.active.registers = m.active.registers)
      ((of (given.mapM (demand f.symbol)) >>= print routine).result store) := by
  refine hm.reads hhas rfl (corresponds_mapM (congrArg Procedure.symbol hm.procedure) hgiven) fun values ho => ?_
  rw [result_print]
  rcases hprint : routine.print store.memory values with ⟨_, _ | stop⟩ <;> simp only [hprint] at ho ⊢
  · obtain ⟨n, hsteps, hn, hregs⟩ := hm.goesOn hhas ho (p := p) rfl
    exact fun _ => ⟨1, n, hsteps, hn, hregs⟩
  · exact hm.follows_stops hhas ho (Reason.reported_stopped stop) rfl

end

/-! ## Calls and returns -/

/-- The machine is about to return a value. -/
structure Returning (callers : List Suspended) (value : Option Value) (store : Store) (m : Machine) : Prop where
  reaction : m.reaction = .returns value
  callers : m.callers = callers
  memory : m.world.memory = store.memory
  output : m.world.output = store.output

theorem Stands.returns_nothing (hm : m.Stands f callers place store) (hhas : f.Has place (.ret none :: operations)) :
    m.Returning callers none store :=
  ⟨hm.react_eq hhas, hm.callers, hm.memory, hm.output⟩

theorem Stands.returns (hm : m.Stands f callers place store)
    (hhas : f.Has place (.ret (some r) :: operations)) (hgiven : m.active.registers.get? r.id = given) :
    m.Follows p strict fuel (fun v after n => after = store ∧ n.Returning callers (returned v) store)
      ((of (demand f.symbol given)).result store) := by
  rw [← bind_pure (of _)]
  refine hm.reads hhas rfl (corresponds_demand (congrArg Procedure.symbol hm.procedure) hgiven) fun v ho => ?_
  exact .done ⟨rfl, (hm.react_eq hhas).trans (congrArg _ ho), hm.callers, hm.memory, hm.output⟩

end Machine

/-- Runs of the procedure follow what is evaluated for its arguments. The step that enters it is left to the
caller. -/
structure Procedure.Answers (p : Program) (strict : Bool) (fuel : Nat) (g : Procedure)
    (x : List Value → Eval (Option Value)) : Prop where
  enters : ∀ {m : Machine} {values : List Value} {callers : List Suspended} {store : Store},
    m.Stands g callers 0 store → m.active = g.activation values → values.length = g.parameters.length →
    m.Follows p strict (fuel - 1) (fun v after n => n.Returning callers v after) ((x values).result store)
  refuses : ∀ {values : List Value} (store : Store), values.length ≠ g.parameters.length →
    ∃ halt, (x values).result store = (.error halt, store) ∧
      (halt = .exhausted ∧ fuel = 0 ∨ halt.Reported (Machine.wrongArity g values))

namespace Machine

/-- A call runs the procedure up to where it returns. -/
theorem Stands.calls (hm : m.Stands f callers place store) {symbol : Symbol} {registers destination given}
    {x : List Value → Eval (Option Value)}
    (hhas : f.Has place (.call (.function symbol) registers destination :: operations))
    (hfound : p.find? symbol = some g) (hanswers : g.Answers p strict fuel x)
    (hgiven : Forall₂ (fun r v => m.active.registers.get? r.id = v) registers given) :
    m.Follows p strict fuel (fun v after n => n.Returning (⟨m.active.tick, g.symbol, destination⟩ :: callers) v after)
      ((of (given.mapM (demand f.symbol)) >>= x).result store) := by
  refine hm.reads hhas rfl (corresponds_mapM (congrArg Procedure.symbol hm.procedure) hgiven) fun values ho => ?_
  have hreaction : m.reaction = .calls symbol values m.active.tick destination :=
    (hm.react_eq hhas).trans (congrArg _ ho)
  by_cases hlength : values.length = g.parameters.length
  · have hentered := advance_of_calls hreaction hfound hlength
    refine .after (.single hentered) (hanswers.enters ⟨rfl, rfl, ?_, hm.memory, hm.output⟩ rfl hlength)
    rw [hm.callers]
  · obtain ⟨_, hresult, hhalt⟩ := hanswers.refuses store hlength
    rw [hresult]
    rcases hhalt with ⟨rfl, rfl⟩ | hreported
    · exact fun _ => Or.inl ⟨rfl, 0, m, Nat.le_refl 0, .refl m⟩
    · exact fun _ => Or.inr ⟨0, m, _, _, .refl m, advance_of_calls_wrongArity hreaction hfound hlength, hreported,
        hm.output⟩

variable {caller : Machine} {symbol : Symbol} {value : Option Value}

/-- A caller that wants no value goes on as it was. -/
theorem Returning.resumes (h : m.Returning (⟨caller.active.tick, symbol, none⟩ :: callers) value store)
    (hcaller : caller.Stands f callers place before) :
    ∃ n, Steps p 1 m n ∧ n.Stands f callers (place + 1) store ∧ n.active.registers = caller.active.registers :=
  ⟨_, .single (advance_of_returns h.reaction h.callers rfl),
    ⟨hcaller.procedure, congrArg (· + 1) hcaller.position, rfl, h.memory, h.output⟩, rfl⟩

theorem Returning.resumes_with (h : m.Returning (⟨caller.active.tick, symbol, some r⟩ :: callers) (some v) store)
    (hcaller : caller.Stands f callers place before) :
    ∃ n, Steps p 1 m n ∧ n.Stands f callers (place + 1) store ∧ Wrote r (some v) caller n :=
  ⟨_, .single (advance_of_returns h.reaction h.callers rfl),
    ⟨hcaller.procedure, congrArg (· + 1) hcaller.position, rfl, h.memory, h.output⟩, wrote_of_eq rfl⟩

/-- A caller that wants a value and gets none ends the run. -/
theorem Returning.lacks (h : m.Returning (⟨a, symbol, some r⟩ :: callers) none store) (htext : symbol.text = .ok text) :
    ∃ w, m.advance p = .ended (.stopped w (.failure (.noValue text))) ∧ w.output = store.output := by
  refine ⟨m.world.after m.world.memory [], ?_, h.output⟩
  rw [advance_eq_follow (by rw [h.reaction]; nofun), h.reaction]
  simp only [follow, h.callers, leave, htext]
  rfl

end Machine

end Retarget
