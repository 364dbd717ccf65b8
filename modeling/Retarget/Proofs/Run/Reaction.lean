import Retarget.Proofs.Run.Step

/-!
# What an activation does next

Whatever the machine does next is decided by the active procedure and by memory alone: it goes on, calls,
returns or stops. The callers and the rest of the world only come in when a call is entered or a value
handed back.
-/
namespace Retarget

/-- What an activation does with its next instruction. -/
inductive Reaction where
  /-- It goes on, after printing some units. -/
  | goesOn (next : Activation) (memory : Memory) (units : List UInt16)
  /-- It waits for a function. -/
  | calls (symbol : Symbol) (values : List Value) (caller : Activation) (destination : Option Register)
  | returns (value : Option Value)
  /-- It ends the run, after printing some units. -/
  | stops (units : List UInt16) (stop : Stop)

namespace Activation

/-- What an operation makes of the activation. -/
def perform (a : Activation) (memory : Memory) : Operation → Reaction
  | .call (.routine routine) arguments _ =>
    match arguments.mapM a.get with
    | .error stop => .stops [] stop
    | .ok values =>
      match routine.print memory values with
      | (units, none) => .goesOn a memory units
      | (units, some stop) => .stops units stop
  | .call (.function symbol) arguments destination =>
    match arguments.mapM a.get with
    | .error stop => .stops [] stop
    | .ok values => .calls symbol values a destination
  | .ret none => .returns none
  | .ret (some register) =>
    match a.get register with
    | .error stop => .stops [] stop
    | .ok value => .returns (Machine.returned value)
  | operation =>
    match a.execute memory operation with
    | .error stop => .stops [] stop
    | .ok (next, memory) => .goesOn next memory []

/-- The instruction to execute next. -/
def next? (a : Activation) : Option Instruction := a.procedure.instructions[a.position]?

/-- The activation past its next instruction. -/
def tick (a : Activation) : Activation := { a with position := a.position + 1 }

/-- What running past the last instruction is. -/
def past (a : Activation) : Stop :=
  match a.procedure.symbol.text with
  | .ok symbol => .failure (.ranPast symbol)
  | .error fault => .fault fault

def react (a : Activation) (memory : Memory) : Reaction :=
  match a.next? with
  | none => .stops [] a.past
  | some i => a.tick.perform memory i.operation

theorem react_of_next {a : Activation} (h : a.next? = some i) : a.react memory = a.tick.perform memory i.operation := by
  simp only [react, h]

theorem react_of_past {a : Activation} (h : a.next? = none) : a.react memory = .stops [] a.past := by
  simp only [react, h]

end Activation

/-- The world after a cycle that left memory so and printed the units. -/
def World.after (w : World) (memory : Memory) (units : List UInt16) : World :=
  { w with memory, printed := units.reverse ++ w.printed, cycles := w.cycles + 1 }

/-- The world with one more procedure under execution. -/
def World.entered (w : World) : World :=
  { w with callDepth := w.callDepth + 1, maxCallDepth := max w.maxCallDepth (w.callDepth + 1) }

/-- The world with one procedure less under execution. -/
def World.left (w : World) : World := { w with callDepth := w.callDepth - 1 }

/-- The activation that a procedure starts with. -/
def Procedure.activation (f : Procedure) (values : List Value) : Activation :=
  ⟨f, 0, Assoc.ofPairs (f.parameterIds.zip values)⟩

/-- The caller that a value is handed back to; it may be in want of one. -/
def Suspended.resume (s : Suspended) (value : Option Value) : Option Activation :=
  match s.destination, value with
  | none, _ => some s.activation
  | some destination, some value => some (s.activation.set destination value)
  | some _, none => none

theorem Suspended.resume_cases {s : Suspended} (h : s.resume value = some a) :
    (s.destination = none ∧ a = s.activation) ∨
      ∃ r v, s.destination = some r ∧ value = some v ∧ a = s.activation.set r v := by
  unfold resume at h
  split at h
  · rename_i hd
    cases h
    exact Or.inl ⟨hd, rfl⟩
  · rename_i r v hd
    cases h
    exact Or.inr ⟨r, v, hd, rfl, rfl⟩
  · cases h

/-- What is handed back changes no more than a register. -/
theorem Suspended.resume_eq {s : Suspended} (h : s.resume value = some a) :
    a.procedure = s.activation.procedure ∧ a.position = s.activation.position := by
  rcases resume_cases h with ⟨-, rfl⟩ | ⟨r, v, -, -, rfl⟩ <;> exact ⟨rfl, rfl⟩

namespace Machine

variable {p : Program} {m n : Machine}

/-- The reaction of the active procedure. -/
def reaction (m : Machine) : Reaction := m.active.react m.world.memory

/-- What a step ends the run with, if it gives no machine to go on with. -/
def settle (w : World) : Except Stop Progress → Progress
  | .ok progress => progress
  | .error stop => .ended (.stopped w stop)

/-- What a reaction of the active procedure makes of the machine. -/
def follow (p : Program) (m : Machine) : Reaction → Progress
  | .goesOn next memory units => .running ⟨m.world.after memory units, next, m.callers⟩
  | .calls symbol values caller destination =>
    let world := m.world.after m.world.memory []
    match p.find? symbol with
    | none => settle world (do throw (.fault (.missingFunction (← symbol.text.step))))
    | some f => settle world (do
      return .running (← enter f values world (⟨caller, f.symbol, destination⟩ :: m.callers)))
  | .returns value =>
    let world := m.world.after m.world.memory []
    settle world (leave value { world with callDepth := world.callDepth - 1 } m.callers)
  | .stops units stop => .ended (.stopped (m.world.after m.world.memory units) stop)

theorem execute_tick (p : Program) (m : Machine) (op : Operation) :
    m.tick.execute p op = m.follow p (m.active.tick.perform m.world.memory op) := by
  have hget : m.tick.active.get = m.active.tick.get := rfl
  have hexecute : m.tick.active.execute = m.active.tick.execute := rfl
  have hmemory : m.tick.world.memory = m.world.memory := rfl
  cases op with
  | call target args =>
    cases target with
    | routine routine =>
      simp only [execute, Activation.perform, hget]
      cases args.mapM m.active.tick.get with
      | error => rfl
      | ok values =>
        show _ = follow p m (match routine.print m.world.memory values with
          | (units, none) => _
          | (units, some stop) => _)
        simp only [hmemory, bind, Except.bind]
        rcases routine.print m.world.memory values with ⟨_, _ | _⟩ <;> rfl
    | function symbol =>
      simp only [execute, Activation.perform, hget]
      cases args.mapM m.active.tick.get with
      | error => rfl
      | ok =>
        simp only [bind, Except.bind, follow]
        cases p.find? symbol <;> rfl
  | ret reg =>
    cases reg with
    | none => rfl
    | some reg =>
      simp only [execute, Activation.perform, hget]
      cases m.active.tick.get reg <;> rfl
  | _ =>
    simp only [execute, Activation.perform, hexecute, hmemory]
    generalize m.active.tick.execute m.world.memory _ = result
    cases result <;> rfl

theorem advance_of_next_reaction (h : m.next? = some i) : m.advance p = m.follow p m.reaction := by
  rw [advance_of_next h, execute_tick]
  exact congrArg (m.follow p) (Activation.react_of_next h).symm

theorem reaction_of_past (h : m.next? = none) : m.reaction = .stops [] m.active.past :=
  Activation.react_of_past h

/-- Unless a procedure runs past its end, the reaction says what the next step does. -/
theorem advance_eq_follow (h : ∀ stop, m.reaction ≠ .stops [] stop) : m.advance p = m.follow p m.reaction := by
  cases hn : m.next? with
  | none => exact absurd (reaction_of_past hn) (h _)
  | some => exact advance_of_next_reaction hn

theorem advance_of_goesOn (h : m.reaction = .goesOn next memory units) :
    m.advance p = .running ⟨m.world.after memory units, next, m.callers⟩ := by
  rw [advance_eq_follow (by rw [h]; nofun), h]
  rfl

theorem advance_of_stops (h : m.reaction = .stops units stop) :
    ∃ w, m.advance p = .ended (.stopped w stop) ∧ w.printed = units.reverse ++ m.world.printed := by
  cases hn : m.next? with
  | none =>
    rw [reaction_of_past hn] at h
    cases h
    refine ⟨m.world, ?_, rfl⟩
    rw [advance_of_past hn]
    unfold past Activation.past
    cases m.active.procedure.symbol.text <;> rfl
  | some =>
    refine ⟨m.world.after m.world.memory units, ?_, rfl⟩
    rw [advance_of_next_reaction hn, h]
    rfl

/-! ## Calls and returns -/

theorem enter_eq {f values} (h : values.length = f.parameters.length) (w : World) (callers : List Suspended) :
    enter f values w callers = .ok ⟨w.entered, f.activation values, callers⟩ := by
  unfold enter
  rw [if_neg (not_not_intro h)]
  rfl

/-- What a call with too few or too many arguments ends with. -/
def wrongArity (f : Procedure) (values : List Value) : Stop :=
  match f.symbol.text with
  | .ok symbol => .failure (.wrongArity symbol f.parameters.length values.length)
  | .error fault => .fault fault

theorem enter_ne {f values} (h : values.length ≠ f.parameters.length) (w : World) (callers : List Suspended) :
    enter f values w callers = .error (wrongArity f values) := by
  unfold enter wrongArity
  rw [if_pos h]
  cases f.symbol.text <;> rfl

section calls
variable {symbol : Symbol} {values : List Value} {caller : Activation} {destination : Option Register}
  {f : Procedure} (h : m.reaction = .calls symbol values caller destination)
include h

theorem advance_of_calls (hf : p.find? symbol = some f) (hl : values.length = f.parameters.length) :
    m.advance p = .running ⟨(m.world.after m.world.memory []).entered, f.activation values,
      ⟨caller, f.symbol, destination⟩ :: m.callers⟩ := by
  rw [advance_eq_follow (by rw [h]; nofun), h]
  simp only [follow, hf, enter_eq hl]
  rfl

theorem advance_of_calls_wrongArity (hf : p.find? symbol = some f) (hl : values.length ≠ f.parameters.length) :
    m.advance p = .ended (.stopped (m.world.after m.world.memory []) (wrongArity f values)) := by
  rw [advance_eq_follow (by rw [h]; nofun), h]
  simp only [follow, hf, enter_ne hl]
  rfl

theorem advance_of_calls_missing (hf : p.find? symbol = none) : ∃ fault, m.advance p = .ended (.faulted fault) := by
  rw [advance_eq_follow (by rw [h]; nofun), h]
  simp only [follow, hf]
  cases symbol.text <;> exact ⟨_, rfl⟩

end calls

section returns
variable {value : Option Value} (h : m.reaction = .returns value)
include h

theorem advance_of_returns_nil (hc : m.callers = []) :
    m.advance p = .ended (.returned value (m.world.after m.world.memory []).left) := by
  rw [advance_eq_follow (by rw [h]; nofun), h]
  simp only [follow, hc]
  rfl

theorem advance_of_returns (hc : m.callers = s :: rest) (ha : s.resume value = some a) :
    m.advance p = .running ⟨(m.world.after m.world.memory []).left, a, rest⟩ := by
  rw [advance_eq_follow (by rw [h]; nofun), h]
  simp only [follow, hc, leave]
  unfold Suspended.resume at ha
  split at ha
  · rename_i hd
    cases ha
    rw [hd]
    rfl
  · rename_i hd
    cases ha
    rw [hd]
    rfl
  · cases ha

/-- A caller that gets no value although it waits for one ends the run. -/
theorem advance_of_returns_none (hc : m.callers = s :: rest) (ha : s.resume value = none) :
    ∃ stop, m.advance p = .ended (.stopped (m.world.after m.world.memory []) stop) ∧
      ((∃ symbol, stop = .failure (.noValue symbol)) ∨
        ∃ fault, s.callee.text = .error fault ∧ stop = .fault fault) := by
  rw [advance_eq_follow (by rw [h]; nofun), h]
  simp only [follow, hc, leave]
  unfold Suspended.resume at ha
  split at ha
  · cases ha
  · cases ha
  · rename_i hd
    rw [hd]
    cases ht : s.callee.text with
    | ok text => exact ⟨.failure (.noValue text), rfl, Or.inl ⟨text, rfl⟩⟩
    | error fault => exact ⟨.fault fault, rfl, Or.inr ⟨fault, rfl, rfl⟩⟩

end returns

/-! ## Inversion -/

/-- The ways in which a machine moves on. -/
inductive Moves (p : Program) (m : Machine) : Machine → Prop
  | goesOn {next : Activation} {memory : Memory} {units : List UInt16}
      (reaction : m.reaction = .goesOn next memory units) :
      Moves p m ⟨m.world.after memory units, next, m.callers⟩
  | calls {symbol : Symbol} {values : List Value} {caller : Activation} {destination : Option Register}
      {f : Procedure} (reaction : m.reaction = .calls symbol values caller destination)
      (found : p.find? symbol = some f) (arity : values.length = f.parameters.length) :
      Moves p m ⟨(m.world.after m.world.memory []).entered, f.activation values,
        ⟨caller, f.symbol, destination⟩ :: m.callers⟩
  | returns {value : Option Value} {s : Suspended} {rest : List Suspended} {a : Activation}
      (reaction : m.reaction = .returns value) (callers : m.callers = s :: rest)
      (resumed : s.resume value = some a) :
      Moves p m ⟨(m.world.after m.world.memory []).left, a, rest⟩

/-- The ways in which a machine ends its run, faults apart. -/
inductive Ends (p : Program) (m : Machine) : Ending → Prop
  | stops {units : List UInt16} {failure : Failure} {w : World}
      (reaction : m.reaction = .stops units (.failure failure))
      (printed : w.printed = units.reverse ++ m.world.printed) : Ends p m (.failed failure w)
  | wrongArity {symbol : Symbol} {values : List Value} {caller : Activation}
      {destination : Option Register} {f : Procedure} {failure : Failure}
      (reaction : m.reaction = .calls symbol values caller destination) (found : p.find? symbol = some f)
      (arity : values.length ≠ f.parameters.length) (stop : Machine.wrongArity f values = .failure failure) :
      Ends p m (.failed failure (m.world.after m.world.memory []))
  | returned {value : Option Value} (reaction : m.reaction = .returns value) (callers : m.callers = []) :
      Ends p m (.returned value (m.world.after m.world.memory []).left)
  | noValue {symbol : String} {value : Option Value} {s : Suspended} {rest : List Suspended}
      (reaction : m.reaction = .returns value) (callers : m.callers = s :: rest) (resumed : s.resume value = none) :
      Ends p m (.failed (.noValue symbol) (m.world.after m.world.memory []))
  | faulted {fault : Fault} : Ends p m (.faulted fault)

/-- A machine moves on or ends its run. -/
theorem advance_cases (p : Program) (m : Machine) :
    (∃ n, m.advance p = .running n ∧ Moves p m n) ∨ ∃ e, m.advance p = .ended e ∧ Ends p m e := by
  cases hr : m.reaction with
  | goesOn => exact Or.inl ⟨_, advance_of_goesOn hr, .goesOn hr⟩
  | calls symbol values =>
    cases hf : p.find? symbol with
    | none =>
      obtain ⟨_, he⟩ := advance_of_calls_missing hr hf
      exact Or.inr ⟨_, he, .faulted⟩
    | some f =>
      by_cases hl : values.length = f.parameters.length
      · exact Or.inl ⟨_, advance_of_calls hr hf hl, .calls hr hf hl⟩
      · refine Or.inr ⟨_, advance_of_calls_wrongArity hr hf hl, ?_⟩
        cases hs : wrongArity f values with
        | failure => exact .wrongArity hr hf hl hs
        | fault => exact .faulted
  | returns value =>
    cases hc : m.callers with
    | nil => exact Or.inr ⟨_, advance_of_returns_nil hr hc, .returned hr hc⟩
    | cons s =>
      cases ha : s.resume value with
      | none =>
        obtain ⟨_, he, ⟨_, rfl⟩ | ⟨_, -, rfl⟩⟩ := advance_of_returns_none (p := p) hr hc ha
        · exact Or.inr ⟨_, he, .noValue hr hc ha⟩
        · exact Or.inr ⟨_, he, .faulted⟩
      | some => exact Or.inl ⟨_, advance_of_returns hr hc ha, .returns hr hc ha⟩
  | stops _ stop =>
    obtain ⟨w, he, hw⟩ := advance_of_stops (p := p) hr
    refine Or.inr ⟨_, he, ?_⟩
    cases stop with
    | failure => exact .stops hr hw
    | fault => exact .faulted

theorem moves_of_running (h : m.advance p = .running n) : Moves p m n := by
  rcases advance_cases p m with ⟨_, hn, hmoves⟩ | ⟨_, he, -⟩
  · cases h.symm.trans hn
    exact hmoves
  · cases h.symm.trans he

theorem ends_of_ended (h : m.advance p = .ended e) : Ends p m e := by
  rcases advance_cases p m with ⟨_, hn, -⟩ | ⟨_, he, hends⟩
  · cases h.symm.trans hn
  · cases h.symm.trans he
    exact hends

end Machine

end Retarget
