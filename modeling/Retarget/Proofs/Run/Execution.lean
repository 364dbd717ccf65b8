import Retarget.Proofs.Checked
import Retarget.Proofs.Run.Arithmetic
import Retarget.Proofs.Run.Reaction

/-!
# What operations do

What an operation does depends on the activation only through the registers that it reads, and it changes
the activation only in the register that it writes and in the place to go on at. This is said by its
outcome, a function of what it reads; the machine applies outcomes to the active procedure.
-/
namespace Retarget

open Checked List Machine

def Value.isZero : Value → Bool
  | .number x => x.isZero
  | _ => false

/-- The operator that a step applies to the type's one. -/
def Direction.operator : Direction → Operator
  | .increment => .add
  | .decrement => .subtract

def Procedure.labelPlace? (f : Procedure) (name : String) : Option Nat :=
  f.instructions.findIdx? (·.operation.labels name)

/-- Where a procedure goes on: at a label, or else at the next place. -/
def Procedure.GoesTo (f : Procedure) (next : Nat) : Option String → Nat → Prop
  | none, position => position = next
  | some name, position => f.labelPlace? name = some position

namespace Activation

variable {a b : Activation} {memory memory' : Memory} {r : Register} {v : Value}

/-! ## Registers -/

theorem get_eq_ok : a.get r = .ok v ↔ a.registers.get? r.id = some v := by
  unfold get
  cases h : a.registers.get? r.id with
  | some => simp [pure, Except.pure]
  | none =>
    simp only [reduceCtorEq, iff_false]
    cases a.procedure.symbol.text <;> nofun

end Activation

structure Effect where
  /-- The register that is written; without a value it is left unassigned. -/
  write : Option (Register × Option Value)
  /-- The label to go on at, if it is not the next instruction. -/
  target : Option String
  memory : Memory
  units : List UInt16

def Effect.assign (memory : Memory) (r : Register) (v : Value) : Effect :=
  ⟨some (r, some v), none, memory, []⟩

/-- What an operation comes to. -/
inductive Operation.Outcome where
  | goesOn (effect : Effect)
  | calls (symbol : Symbol) (values : List Value) (destination : Option Register)
  | returns (value : Option Value)
  | stops (units : List UInt16) (stop : Stop)

namespace Operation

def number (get : Register → Except Stop Value) (r : Register) : Except Stop Number := do
  match ← get r with
  | .number value => return value
  | .pointer .. | .null => throw (.failure (.holdsPointer r.id))

/-- A pointer among what is read, null included. -/
def pointer (get : Register → Except Stop Value) (r : Register) : Except Stop Value := do
  match ← get r with
  | .number _ => throw (.failure (.holdsNumber r.id))
  | pointer => return pointer

def place (get : Register → Except Stop Value) (r : Register) : Except Stop (String × Number) := do
  match ← pointer get r with
  | .pointer block offset => return (block, offset)
  | _ => throw (.failure (.noBlock "null"))

/-- The outcome that a computation leads to, unless it stops. -/
def reading {α : Type} (x : Except Stop α) (k : α → Outcome) : Outcome :=
  match x with
  | .error stop => .stops [] stop
  | .ok a => k a

/-- The outcome of computing a value for a register. -/
def assigns (memory : Memory) (r : Register) : Except Stop Value → Outcome
  | .ok value => .goesOn (.assign memory r value)
  | .error stop => .stops [] stop

/-- What an operation comes to, by what it reads from registers and from memory. -/
def outcome (get : Register → Except Stop Value) (memory : Memory) : Operation → Outcome
  | .loadImmediate value destination => assigns memory destination (.ok (.number value))
  | .move source target => assigns memory target (get source)
  | .binary operator lhs rhs destination => assigns memory destination do
    let x ← number get lhs
    let y ← number get rhs
    return .number (← evaluateBinary operator destination.type x y)
  | .compare comparison lhs rhs destination => assigns memory destination do
    let x ← get lhs
    let y ← get rhs
    return Activation.truth (← evaluateComparison comparison x y)
  | .testZero source negated destination => assigns memory destination do
    return Activation.truth ((← get source).isZero != negated)
  | .convert source target => assigns memory target <|
    if target.type.isPointer then pointer get source
    else do
      let value ← number get source
      return .number (← (evaluateConversion value source.type target.type).step)
  | .step direction register => assigns memory register do
    if !register.type.isNumeric then
      throw (.fault (.stepOf direction.name (← register.type.text.step)))
    let value ← number get register
    return .number (← evaluateBinary direction.operator register.type value (.ofNat register.type.one))
  | .label _ => .goesOn ⟨none, none, memory, []⟩
  | .goto name => .goesOn ⟨none, some name, memory, []⟩
  | .gotoIfFalse condition name => reading (number get condition) fun value =>
    .goesOn ⟨none, if value.isZero then some name else none, memory, []⟩
  | .call (.routine routine) arguments _ => reading (arguments.mapM get) fun values =>
    match routine.print memory values with
    | (units, none) => .goesOn ⟨none, none, memory, units⟩
    | (units, some stop) => .stops units stop
  | .call (.function symbol) arguments destination => reading (arguments.mapM get) fun values =>
    .calls symbol values destination
  | .ret none => .returns none
  | .ret (some register) => reading (get register) fun value => .returns (Machine.returned value)
  | .addressOf symbol destination => assigns memory destination (.ok (.pointer symbol.text 0))
  | .arrayIndex base index destination => assigns memory destination do
    let (block, offset) ← place get base
    let distance ← number get index
    return .pointer block (offset.add distance)
  | .load address destination => reading (place get address) fun (block, offset) =>
    match memory.read block offset with
    | .error failure => .stops [] (.failure failure)
    | .ok value => .goesOn ⟨some (destination, value), none, memory, []⟩
  | .store address value => reading (do return (← place get address, ← get value))
    fun ((block, offset), value) =>
      match memory.write block offset value with
      | .error failure => .stops [] (.failure failure)
      | .ok memory => .goesOn ⟨none, none, memory, []⟩
  | .unknown node => .stops [] (.fault (.unhandled node "interpretFunction"))

section
variable {get get' : Register → Except Stop Value} {memory : Memory} {operation : Operation} {e : Effect}

theorem mapM_congr {rs : List Register} (h : ∀ r ∈ rs, get' r = get r) : rs.mapM get' = rs.mapM get := by
  induction rs with
  | nil => rfl
  | cons r rs ih => rw [mapM_cons, mapM_cons, h r (.head _), ih fun s hs => h s (.tail _ hs)]

/-- An operation depends on the registers that it reads, and on no others. -/
theorem outcome_congr (h : ∀ r ∈ operation.reads, get' r = get r) :
    operation.outcome get' memory = operation.outcome get memory := by
  cases operation with
  | call target args =>
    have hvals : args.mapM get' = args.mapM get := mapM_congr h
    cases target <;> simp only [outcome, hvals]
  | ret reg => cases reg <;> simp_all [outcome, reads]
  | _ =>
    simp only [reads, mem_cons, not_mem_nil, or_false, forall_eq_or_imp, forall_eq] at h
    simp only [outcome, number, pointer, place, h]

/-- The effects of operations, one rule for each. -/
inductive Does (get : Register → Except Stop Value) (memory : Memory) : Operation → Effect → Prop
  | loadImmediate {value destination} :
      Does get memory (.loadImmediate value destination) (.assign memory destination (.number value))
  | move {source target v} (read : get source = .ok v) :
      Does get memory (.move source target) (.assign memory target v)
  | binary {operator lhs rhs destination x y z} (left : get lhs = .ok (.number x)) (right : get rhs = .ok (.number y))
      (result : evaluateBinary operator destination.type x y = .ok z) :
      Does get memory (.binary operator lhs rhs destination) (.assign memory destination (.number z))
  | compare {comparison lhs rhs destination x y holds} (left : get lhs = .ok x) (right : get rhs = .ok y)
      (result : evaluateComparison comparison x y = .ok holds) :
      Does get memory (.compare comparison lhs rhs destination)
        (.assign memory destination (Activation.truth holds))
  | testZero {source destination negated v} (read : get source = .ok v) :
      Does get memory (.testZero source negated destination)
        (.assign memory destination (Activation.truth (v.isZero != negated)))
  | convertPointer {source target v} (type : target.type.isPointer = true) (read : get source = .ok v)
      (isPointer : ∀ x, v ≠ .number x) :
      Does get memory (.convert source target) (.assign memory target v)
  | convert {source target x z} (type : target.type.isPointer = false) (read : get source = .ok (.number x))
      (result : evaluateConversion x source.type target.type = .ok z) :
      Does get memory (.convert source target) (.assign memory target (.number z))
  | step {direction register x z} (type : register.type.isNumeric = true) (read : get register = .ok (.number x))
      (result : evaluateBinary direction.operator register.type x (.ofNat register.type.one) = .ok z) :
      Does get memory (.step direction register) (.assign memory register (.number z))
  | label {name} : Does get memory (.label name) ⟨none, none, memory, []⟩
  | goto {name} : Does get memory (.goto name) ⟨none, some name, memory, []⟩
  | gotoIfFalse {condition name x} (read : get condition = .ok (.number x)) :
      Does get memory (.gotoIfFalse condition name)
        ⟨none, if x.isZero then some name else none, memory, []⟩
  | routine {routine arguments destination values units} (read : arguments.mapM get = .ok values)
      (printed : routine.print memory values = (units, none)) :
      Does get memory (.call (.routine routine) arguments destination) ⟨none, none, memory, units⟩
  | addressOf {symbol destination} :
      Does get memory (.addressOf symbol destination) (.assign memory destination (.pointer symbol.text 0))
  | arrayIndex {base index destination block offset x} (address : get base = .ok (.pointer block offset))
      (distance : get index = .ok (.number x)) :
      Does get memory (.arrayIndex base index destination)
        (.assign memory destination (.pointer block (offset.add x)))
  | load {address destination block offset v} (place : get address = .ok (.pointer block offset))
      (read : memory.read block offset = .ok v) :
      Does get memory (.load address destination) ⟨some (destination, v), none, memory, []⟩
  | store {address value block offset v memory'} (place : get address = .ok (.pointer block offset))
      (read : get value = .ok v) (written : memory.write block offset v = .ok memory') :
      Does get memory (.store address value) ⟨none, none, memory', []⟩

theorem assigns_eq_goesOn : assigns memory r x = .goesOn e ↔ ∃ v, x = .ok v ∧ e = .assign memory r v := by
  cases x with
  | error => simp [assigns]
  | ok => simp [assigns, Effect.assign, eq_comm]

theorem reading_eq_goesOn {α : Type} {x} {k : α → Outcome} :
    reading x k = .goesOn e ↔ ∃ a, x = .ok a ∧ k a = .goesOn e := by
  cases x <;> simp [reading]

theorem number_eq_ok : number get r = .ok x ↔ get r = .ok (.number x) := by
  unfold number
  cases h : get r with
  | error => simp [bind, Except.bind]
  | ok v => cases v <;> simp [bind, Except.bind, pure, Except.pure, throw, throwThe, MonadExceptOf.throw]

theorem pointer_eq_ok : pointer get r = .ok v ↔ get r = .ok v ∧ ∀ x, v ≠ .number x := by
  unfold pointer
  cases h : get r with
  | error => simp [bind, Except.bind]
  | ok w =>
    cases w <;> simp [bind, Except.bind, pure, Except.pure, throw, throwThe, MonadExceptOf.throw] <;>
      rintro rfl <;> simp

theorem place_eq_ok : place get r = .ok (block, offset) ↔ get r = .ok (.pointer block offset) := by
  unfold place
  cases h : pointer get r with
  | error =>
    simp only [bind, Except.bind, reduceCtorEq, false_iff]
    intro hr
    rw [pointer_eq_ok.mpr ⟨hr, nofun⟩] at h
    cases h
  | ok w =>
    rw [(pointer_eq_ok.mp h).1]
    cases w <;> simp [bind, Except.bind, pure, Except.pure, throw, throwThe, MonadExceptOf.throw]

attribute [local simp] bind_eq_ok map_eq_ok step_eq_ok assigns_eq_goesOn reading_eq_goesOn number_eq_ok pointer_eq_ok
  place_eq_ok

theorem does_of_outcome (h : op.outcome get memory = .goesOn e) : Does get memory op e := by
  cases op with
  | loadImmediate =>
    cases h
    exact .loadImmediate
  | move =>
    obtain ⟨v, hv, rfl⟩ := assigns_eq_goesOn.mp h
    exact .move hv
  | binary =>
    simp [outcome] at h
    obtain ⟨x, y, z, ⟨hx, hy, hz⟩, rfl⟩ := h
    exact .binary hx hy hz
  | compare =>
    simp [outcome, -Bool.exists_bool] at h
    obtain ⟨x, y, z, ⟨hx, hy, hz⟩, rfl⟩ := h
    exact .compare hx hy hz
  | testZero =>
    simp [outcome] at h
    obtain ⟨v, hv, rfl⟩ := h
    exact .testZero hv
  | convert _ target =>
    cases ht : target.type.isPointer <;> simp [outcome, ht] at h
    · obtain ⟨x, z, ⟨hx, hz⟩, rfl⟩ := h
      exact .convert ht hx hz
    · obtain ⟨v, ⟨hs, hp⟩, rfl⟩ := h
      exact .convertPointer ht hs hp
  | step _ reg =>
    cases ht : reg.type.isNumeric <;> simp [outcome, ht] at h
    obtain ⟨x, z, ⟨hx, hz⟩, rfl⟩ := h
    exact .step ht hx hz
  | label =>
    cases h
    exact .label
  | goto =>
    cases h
    exact .goto
  | gotoIfFalse =>
    simp [outcome] at h
    obtain ⟨x, hx, rfl⟩ := h
    exact .gotoIfFalse hx
  | call target =>
    cases target with
    | routine =>
      obtain ⟨_, hvalues, hk⟩ := reading_eq_goesOn.mp h
      split at hk <;> cases hk
      exact .routine hvalues ‹_›
    | function => simp [outcome] at h
  | ret reg => cases reg <;> simp [outcome] at h
  | addressOf =>
    cases h
    exact .addressOf
  | arrayIndex =>
    simp [outcome] at h
    obtain ⟨_, _, x, ⟨haddr, hx⟩, rfl⟩ := h
    exact .arrayIndex haddr hx
  | load =>
    simp [outcome] at h
    obtain ⟨_, _, haddr, hk⟩ := h
    split at hk <;> cases hk
    exact .load haddr ‹_›
  | store =>
    simp [outcome] at h
    obtain ⟨_, _, v, ⟨haddr, hv⟩, hk⟩ := h
    split at hk <;> cases hk
    exact .store haddr hv ‹_›
  | unknown => cases h

theorem Does.outcome_eq (h : Does get memory op e) : op.outcome get memory = .goesOn e := by
  cases h with
  | convertPointer type read isPointer =>
    simp only [outcome, type, ↓reduceIte, pointer_eq_ok.mpr ⟨read, isPointer⟩, assigns]
  | convert type read result =>
    simp [outcome, type, number, read, result, Checked.step, assigns, bind, Except.bind, pure, Except.pure]
  | store place read written =>
    simp [outcome, reading, Operation.place, pointer, place, read, written, bind, Except.bind, pure,
      Except.pure]
  | load place read =>
    simp [outcome, reading, Operation.place, pointer, place, read, bind, Except.bind, pure, Except.pure]
  | _ => simp_all [outcome, reading, number, place, pointer, assigns, bind, Except.bind, pure, Except.pure]

theorem Does.mem_writes (h : Does get memory op e) (hw : e.write = some (r, v)) : r ∈ op.writes := by
  cases h <;> cases hw <;> exact mem_singleton.mpr rfl

theorem Does.jumpTarget (h : Does get memory op e) (ht : e.target = some name) : op.jumpTarget? = some name := by
  cases h with
  | goto => exact ht
  | gotoIfFalse =>
    dsimp only at ht
    split at ht <;> cases ht
    rfl
  | _ => cases ht

/-- How an operation leaves the activation: only as a call of a function or as a return. -/
inductive Leaves (get : Register → Except Stop Value) : Operation → Outcome → Prop
  | calls {symbol arguments values destination} (read : arguments.mapM get = .ok values) :
      Leaves get (.call (.function symbol) arguments destination) (.calls symbol values destination)
  | returnsNone : Leaves get (.ret none) (.returns none)
  | returns {r v} (read : get r = .ok v) : Leaves get (.ret (some r)) (.returns (returned v))

theorem leaves_of_outcome {o} (h : operation.outcome get memory = o) (hgoes : ∀ e, o ≠ .goesOn e)
    (hstops : ∀ units stop, o ≠ .stops units stop) : Leaves get operation o := by
  have hassigns : ∀ {r x}, assigns memory r x ≠ o := fun {r x} h => by
    cases x with
    | ok => exact hgoes _ h.symm
    | error => exact hstops _ _ h.symm
  have hreading : ∀ {α : Type} {x : Except Stop α} {k}, reading x k = o → ∃ a, x = .ok a ∧ k a = o :=
    fun {α x k} h => by
      cases x with
      | ok a => exact ⟨a, rfl, h⟩
      | error => exact absurd h.symm (hstops _ _)
  cases operation with
  | call target =>
    cases target with
    | routine =>
      obtain ⟨_, -, h⟩ := hreading h
      split at h
      · exact absurd h.symm (hgoes _)
      · exact absurd h.symm (hstops _ _)
    | function =>
      obtain ⟨_, hvals, rfl⟩ := hreading h
      exact .calls hvals
  | ret r =>
    cases r with
    | none => exact h ▸ .returnsNone
    | some =>
      obtain ⟨v, hv, rfl⟩ := hreading h
      exact .returns hv
  | loadImmediate | label | goto | addressOf => exact absurd h.symm (hgoes _)
  | unknown => exact absurd h.symm (hstops _ _)
  | gotoIfFalse =>
    obtain ⟨x, -, h⟩ := hreading h
    exact absurd h.symm (hgoes _)
  | load | store =>
    obtain ⟨_, -, h⟩ := hreading h
    dsimp only at h
    split at h
    · exact absurd h.symm (hstops _ _)
    · exact absurd h.symm (hgoes _)
  | _ => exact absurd h hassigns

theorem calls_of_outcome (h : operation.outcome get memory = .calls symbol values destination) :
    ∃ arguments, operation = .call (.function symbol) arguments destination ∧
      arguments.mapM get = .ok values := by
  cases leaves_of_outcome h nofun nofun with
  | calls read => exact ⟨_, rfl, read⟩

theorem returns_of_outcome (h : operation.outcome get memory = .returns value) :
    (operation = .ret none ∧ value = none) ∨
      ∃ r v, operation = .ret (some r) ∧ get r = .ok v ∧ value = returned v := by
  cases leaves_of_outcome h nofun nofun with
  | returnsNone => exact Or.inl ⟨rfl, rfl⟩
  | returns read => exact Or.inr ⟨_, _, rfl, read, rfl⟩

end

end Operation

namespace Activation

def written (a : Activation) : Option (Register × Option Value) → Activation
  | none => a
  | some (r, value) => a.assign r value

def moved (a : Activation) : Option String → Except Stop Activation
  | none => .ok a
  | some label => a.jump label

/-- The reaction that an outcome is to an activation. -/
def follow (a : Activation) : Operation.Outcome → Reaction
  | .goesOn effect =>
    match (a.written effect.write).moved effect.target with
    | .error stop => .stops effect.units stop
    | .ok next => .goesOn next effect.memory effect.units
  | .calls symbol values destination => .calls symbol values a destination
  | .returns value => .returns value
  | .stops units stop => .stops units stop

theorem getNumber_eq (a : Activation) : a.getNumber = Operation.number a.get := rfl

theorem getPointer_eq (a : Activation) : a.getPointer = Operation.pointer a.get := rfl

theorem getPlace_eq (a : Activation) : a.getPlace = Operation.place a.get := rfl

/-- The reaction that executing an operation is. -/
def executed : Except Stop (Activation × Memory) → Reaction
  | .error stop => .stops [] stop
  | .ok (next, memory) => .goesOn next memory []

theorem follow_assigns (a : Activation) (memory : Memory) (r : Register) (x : Except Stop Value) :
    a.follow (Operation.assigns memory r x) = executed (do return (a.set r (← x), memory)) := by
  cases x <;> rfl

theorem follow_reading {α : Type} {a : Activation} {x : Except Stop α} {k f}
    (h : ∀ v, a.follow (k v) = executed (f v)) :
    a.follow (Operation.reading x k) = executed (x >>= f) := by
  cases x with
  | error => rfl
  | ok v => exact h v

theorem perform_eq (a : Activation) (memory : Memory) (op : Operation) :
    a.perform memory op = a.follow (op.outcome a.get memory) := by
  cases op with
  | loadImmediate | label | addressOf | unknown => rfl
  | move | binary | compare | arrayIndex =>
    rw [Operation.outcome, follow_assigns]
    show executed _ = _
    simp only [execute, getNumber_eq, getPlace_eq, bind_assoc, pure_bind]
  | testZero source =>
    simp only [perform, execute, Operation.outcome]
    rcases a.get source with _ | (_ | _ | _) <;> rfl
  | convert =>
    rw [Operation.outcome, follow_assigns]
    show executed (if _ then _ else _) = _
    split <;> simp only [getNumber_eq, getPointer_eq, bind_assoc, pure_bind]
  | step dir reg =>
    rw [Operation.outcome, follow_assigns]
    show executed (if _ then _ else _) = _
    split
    · cases reg.type.text <;> rfl
    · cases dir <;> simp only [getNumber_eq, bind_assoc, pure_bind, Direction.operator]
  | goto name =>
    simp only [perform, execute, Operation.outcome, follow, written, moved]
    cases a.jump name <;> rfl
  | gotoIfFalse _ name =>
    refine (follow_reading fun x => ?_).symm
    cases x.isZero with
    | false => rfl
    | true =>
      simp only [follow, written, moved, ↓reduceIte]
      cases a.jump name <;> rfl
  | call target args =>
    cases target with
    | routine routine =>
      simp only [perform, Operation.outcome]
      cases args.mapM a.get with
      | error => rfl
      | ok values =>
        simp only [Operation.reading]
        rcases routine.print memory values with ⟨_, _ | _⟩ <;> rfl
    | function =>
      simp only [perform, Operation.outcome]
      cases args.mapM a.get <;> rfl
  | ret reg =>
    cases reg with
    | none => rfl
    | some reg =>
      simp only [perform, Operation.outcome]
      cases a.get reg <;> rfl
  | load =>
    refine (follow_reading fun place => ?_).symm
    obtain ⟨block, offset⟩ := place
    dsimp only
    cases memory.read block offset <;> rfl
  | store addr value =>
    simp only [perform, execute, Operation.outcome, getPlace_eq]
    rcases Operation.place a.get addr with _ | ⟨block, offset⟩
    · rfl
    cases a.get value with
    | error => rfl
    | ok v =>
      simp only [bind, Except.bind, pure, Except.pure, Operation.reading]
      cases memory.write block offset v <;> rfl

variable {a b : Activation} {memory memory' : Memory}

theorem tick_get (a : Activation) : a.tick.get = a.get := rfl

theorem react_eq (h : a.next? = some i) : a.react memory = a.tick.follow (i.operation.outcome a.get memory) := by
  rw [react_of_next h, perform_eq, tick_get]

/-! ## Places and registers after an effect -/

section
variable {w : Option (Register × Option Value)} {target : Option String}

@[simp] theorem written_procedure (a : Activation) (w : Option (Register × Option Value)) :
    (a.written w).procedure = a.procedure := by
  rcases w with _ | ⟨r, _ | v⟩ <;> rfl

@[simp] theorem written_position (a : Activation) (w : Option (Register × Option Value)) :
    (a.written w).position = a.position := by
  rcases w with _ | ⟨r, _ | v⟩ <;> rfl

theorem get?_written (a : Activation) (r : Register) (v : Option Value) (id : Numeral) :
    (a.written (some (r, v))).registers.get? id = if r.id = id then v else a.registers.get? id := by
  cases v with
  | none => exact Assoc.get?_erase _ _ _
  | some => exact Assoc.get?_set _ _ _ _

/-- A jump leads to a place, or it is a fault. -/
theorem moved_cases (a : Activation) (target : Option String) :
    (∃ position, a.moved target = .ok { a with position } ∧ a.procedure.GoesTo a.position target position) ∨
      ∃ fault, a.moved target = .error (.fault fault) ∧
        ∀ position, ¬ a.procedure.GoesTo a.position target position := by
  cases target with
  | none => exact Or.inl ⟨_, rfl, rfl⟩
  | some name =>
    simp only [moved, jump]
    split
    · rename_i position hp
      exact Or.inl ⟨position, rfl, hp⟩
    · rename_i hnone
      have hmissing : ∀ position, ¬ a.procedure.GoesTo a.position (some name) position := fun _ hp =>
        nomatch hnone.symm.trans hp
      cases a.procedure.symbol.text <;> exact Or.inr ⟨_, rfl, hmissing⟩

theorem moved_of_goesTo {position} (h : a.procedure.GoesTo a.position target position) :
    a.moved target = .ok { a with position } := by
  cases target with
  | none =>
    obtain rfl := h
    rfl
  | some =>
    simp only [Procedure.GoesTo, Procedure.labelPlace?] at h
    simp only [moved, jump, h]
    rfl

/-- All that an activation does, by the outcome of its next instruction. -/
inductive Reacts (a : Activation) (memory : Memory) : Reaction → Prop
  | past {stop} (next : a.next? = none) (past : a.past = stop) : Reacts a memory (.stops [] stop)
  | goesOn {i e position} (next : a.next? = some i) (outcome : i.operation.outcome a.get memory = .goesOn e)
      (target : a.procedure.GoesTo (a.position + 1) e.target position) :
      Reacts a memory (.goesOn { a.written e.write with position } e.memory e.units)
  | strays {i e fault} (next : a.next? = some i) (outcome : i.operation.outcome a.get memory = .goesOn e)
      (missing : ∀ position, ¬ a.procedure.GoesTo (a.position + 1) e.target position) :
      Reacts a memory (.stops e.units (.fault fault))
  | calls {i symbol values destination} (next : a.next? = some i)
      (outcome : i.operation.outcome a.get memory = .calls symbol values destination) :
      Reacts a memory (.calls symbol values a.tick destination)
  | returns {i value} (next : a.next? = some i) (outcome : i.operation.outcome a.get memory = .returns value) :
      Reacts a memory (.returns value)
  | stops {i units stop} (next : a.next? = some i) (outcome : i.operation.outcome a.get memory = .stops units stop) :
      Reacts a memory (.stops units stop)

theorem reacts_of_react {reaction} (h : a.react memory = reaction) : Reacts a memory reaction := by
  cases hn : a.next? with
  | none =>
    rw [react_of_past hn] at h
    exact h ▸ .past hn rfl
  | some i =>
    rw [react_eq hn] at h
    cases ho : i.operation.outcome a.get memory <;> rw [ho] at h <;> subst h
    case goesOn e =>
      rcases (a.tick.written e.write).moved_cases e.target with ⟨position, hm, hp⟩ | ⟨fault, hm, hp⟩ <;>
        rw [written_procedure, written_position] at hp
      · have hnext : { a.tick.written e.write with position } = { a.written e.write with position } := by
          rcases e.write with _ | ⟨r, _ | v⟩ <;> rfl
        simp only [follow, hm, hnext]
        exact .goesOn hn ho hp
      · simp only [follow, hm]
        exact .strays hn ho hp
    case calls => exact .calls hn ho
    case returns => exact .returns hn ho
    case stops => exact .stops hn ho

/-- What an activation that goes on has done. -/
theorem goesOn_of_react {units} (h : a.react memory = .goesOn b memory' units) :
    ∃ i e position, a.next? = some i ∧ Operation.Does a.get memory i.operation e ∧ e.memory = memory' ∧
      e.units = units ∧ a.procedure.GoesTo (a.position + 1) e.target position ∧
      b = { a.written e.write with position } := by
  cases reacts_of_react h with
  | goesOn next outcome target => exact ⟨_, _, _, next, Operation.does_of_outcome outcome, rfl, rfl, target, rfl⟩

theorem procedure_of_goesOn (h : a.react memory = .goesOn b memory' units) : b.procedure = a.procedure := by
  obtain ⟨_, e, _, -, -, -, -, -, rfl⟩ := goesOn_of_react h
  exact written_procedure a e.write

theorem react_of_does {i e position} (hn : a.next? = some i) (hd : Operation.Does a.get memory i.operation e)
    (hp : a.procedure.GoesTo (a.position + 1) e.target position) :
    a.react memory = .goesOn { a.written e.write with position } e.memory e.units := by
  have hmoved : (a.tick.written e.write).moved e.target = .ok { a.tick.written e.write with position } := by
    apply moved_of_goesTo
    rwa [written_procedure, written_position]
  rw [react_eq hn, hd.outcome_eq]
  simp only [follow, hmoved]
  rcases e.write with _ | ⟨r, _ | v⟩ <;> rfl

theorem calls_of_react {symbol values dest} (h : a.react memory = .calls symbol values b dest) :
    ∃ i args, a.next? = some i ∧ i.operation = .call (.function symbol) args dest ∧
      args.mapM a.get = .ok values ∧ b = a.tick := by
  cases reacts_of_react h with
  | calls next outcome =>
    obtain ⟨args, hop, hvals⟩ := Operation.calls_of_outcome outcome
    exact ⟨_, args, next, hop, hvals, rfl⟩

theorem react_of_calls (hn : a.next? = some i)
    (hop : i.operation = .call (.function symbol) arguments destination) (hvals : arguments.mapM a.get = .ok values) :
    a.react memory = .calls symbol values a.tick destination := by
  rw [react_eq hn, hop]
  simp only [Operation.outcome, Operation.reading, hvals, follow]

theorem outcome_of_returns {value} (h : a.react memory = .returns value) :
    ∃ i, a.next? = some i ∧ i.operation.outcome a.get memory = .returns value := by
  cases reacts_of_react h with
  | returns next outcome => exact ⟨_, next, outcome⟩

theorem returns_of_react (h : a.react memory = .returns value) :
    ∃ i, a.next? = some i ∧ ((i.operation = .ret none ∧ value = none) ∨
      ∃ r v, i.operation = .ret (some r) ∧ a.get r = .ok v ∧ value = returned v) := by
  obtain ⟨i, hn, ho⟩ := outcome_of_returns h
  exact ⟨i, hn, Operation.returns_of_outcome ho⟩

theorem react_of_returns (hn : a.next? = some i) (ho : i.operation.outcome a.get memory = .returns value) :
    a.react memory = .returns value := by
  rw [react_eq hn, ho]
  rfl

theorem failure_of_react {units failure} (h : a.react memory = .stops units (.failure failure)) :
    (a.next? = none ∧ units = [] ∧ a.past = .failure failure) ∨
      ∃ i, a.next? = some i ∧ i.operation.outcome a.get memory = .stops units (.failure failure) := by
  cases reacts_of_react h with
  | past next past => exact Or.inl ⟨next, rfl, past⟩
  | stops next outcome => exact Or.inr ⟨_, next, outcome⟩

theorem react_of_stops (hn : a.next? = some i)
    (ho : i.operation.outcome a.get memory = .stops units stop) : a.react memory = .stops units stop := by
  rw [react_eq hn, ho]
  rfl

end

end Activation

end Retarget
