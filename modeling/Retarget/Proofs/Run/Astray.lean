import Retarget.Proofs.Code.Label

/-!
# Runs that go astray

A run goes astray if it comes to something that is not there: a register without a value, a label or a function.
No arithmetic, no access to memory and no printing leads it astray. So an activation goes astray only where it
reads a register that has no value, or where a jump leads to no label.
-/
namespace Retarget

/-! ## What may go wrong -/

/-- Whatever the computation stops with is so. -/
def StopsOnly {ε α : Type} (P : ε → Prop) (x : Except ε α) : Prop := ∀ e, x = .error e → P e

namespace StopsOnly

variable {ε α β : Type} {P Q : ε → Prop} {x : Except ε α}

theorem ok (a : α) : StopsOnly P (.ok a : Except ε α) := fun _ h => by cases h

theorem error (h : P e) : StopsOnly P (.error e : Except ε α) := fun _ he => by
  cases he
  exact h

theorem mono (h : StopsOnly P x) (hPQ : ∀ e, P e → Q e) : StopsOnly Q x := fun e he => hPQ e (h e he)

theorem bind {k : α → Except ε β} (hx : StopsOnly P x) (hk : ∀ a, StopsOnly P (k a)) : StopsOnly P (x >>= k) := by
  cases x with
  | ok a => exact hk a
  | error e => exact error (hx e rfl)

theorem ite {c : Prop} [Decidable c] (hx : StopsOnly P x) (hy : StopsOnly P y) : StopsOnly P (if c then x else y) := by
  split
  · exact hx
  · exact hy

theorem mapM {k : α → Except ε β} {as : List α} (hk : ∀ a ∈ as, StopsOnly P (k a)) : StopsOnly P (as.mapM k) := by
  induction as with
  | nil => exact ok _
  | cons a as ih =>
    rw [List.mapM_cons]
    exact (hk a (.head _)).bind fun b => (ih fun a ha => hk a (.tail _ ha)).bind fun bs => ok _

end StopsOnly

/-- A label or a function is not there. -/
def Fault.isAstray : Fault → Bool
  | .missingLabel .. | .missingFunction _ => true
  | _ => false

/-- A register has no value, or a label or a function is not there. -/
def Stop.isAstray : Stop → Bool
  | .failure (.uninitialized ..) => true
  | .failure _ => false
  | .fault cause => cause.isAstray

/-! ## Types and arithmetic -/

/-- Whatever goes wrong in the computation, it is not led astray. -/
abbrev Checked.Stays {α : Type} (x : Checked α) : Prop := StopsOnly (·.isAstray = false) x

theorem Checked.Stays.step {α : Type} {x : Checked α} (h : x.Stays) : StopsOnly (·.isAstray = false) x.step := by
  cases x with
  | ok a => exact .ok a
  | error fault => exact .error (h fault rfl)

namespace Ty

theorem shortName_stays (type : Ty) : type.shortName.Stays := by
  induction type with
  | pointer _ ih | array _ _ ih => exact ih.bind fun _ => .ok _
  | parameter | unknown => exact .error rfl
  | _ => exact .ok _

theorem text_stays (type : Ty) : type.text.Stays := by
  induction type with
  | pointer _ ih | array _ _ ih => exact ih.bind fun _ => .ok _
  | unknown => exact .error rfl
  | _ => exact .ok _

theorem valueBits_stays (type : Ty) : type.valueBits.Stays := by
  cases type <;> first | exact .ok _ | exact .error rfl

theorem isSigned_stays (type : Ty) : type.isSigned.Stays := by
  cases type <;> first | exact .ok _ | exact .error rfl

theorem wrap_stays (type : Ty) (value : Number) : (type.wrap value).Stays := by
  refine type.valueBits_stays.bind fun bits => ?_
  cases bits with
  | none => exact .error rfl
  | some => exact .ite (.ok _) (type.isSigned_stays.bind fun _ => .ok _)

end Ty

theorem Symbol.text_stays (s : Symbol) : s.text.Stays :=
  (StopsOnly.mapM fun type _ => type.shortName_stays).bind fun _ => .ok _

theorem evaluateBinary_stays (operator : Operator) (type : Ty) (lhs rhs : Number) :
    StopsOnly (·.isAstray = false) (evaluateBinary operator type lhs rhs) := by
  refine type.valueBits_stays.step.bind fun bits => ?_
  have hwrap (value : Number) : StopsOnly (·.isAstray = false) (type.wrap value).step := (type.wrap_stays value).step
  cases bits with
  | none => exact type.text_stays.step.bind fun _ => .error rfl
  | some =>
    cases operator with
    | add | subtract | and | or | xor => exact hwrap _
    | multiply => cases type <;> exact hwrap _
    | divide | modulo => exact .ite (.error rfl) (hwrap _)
    | shiftLeft =>
      dsimp only
      split
      · exact .ok _
      · exact hwrap _
    | shiftRight =>
      dsimp only
      split
      · exact type.isSigned_stays.step.bind fun _ => .ok _
      · exact hwrap _
    | inherited | other => exact .error rfl

theorem evaluateComparison_stays (cmp : Comparison) (lhs rhs : Value) :
    StopsOnly (·.isAstray = false) (evaluateComparison cmp lhs rhs) := by
  unfold evaluateComparison
  split <;> split <;> first | exact .ok _ | exact .error rfl

theorem evaluateConversion_stays (value : Number) (source target : Ty) :
    (evaluateConversion value source target).Stays := by
  refine .ite (.ok _) (.ite (.error rfl) ?_)
  exact .ite (target.wrap_stays _) (target.wrap_stays _)

/-! ## Memory and printing -/

/-- The failure does not lead a run astray. -/
abbrev Failure.Stays (failure : Failure) : Prop := (Stop.failure failure).isAstray = false

namespace Memory

theorem block_stays (memory : Memory) (name : String) (offset : Number) :
    StopsOnly Failure.Stays (memory.block name offset) := by
  unfold block
  split
  · exact .error rfl
  · exact .ite (.error rfl) (.ok _)

theorem read_stays (memory : Memory) (name : String) (offset : Number) :
    StopsOnly Failure.Stays (memory.read name offset) :=
  (memory.block_stays name offset).bind fun _ => .ok _

theorem write_stays (memory : Memory) (name : String) (offset : Number) (value : Value) :
    StopsOnly Failure.Stays (memory.write name offset value) :=
  (memory.block_stays name offset).bind fun _ => .ok _

end Memory

theorem stringUnits_stays {memory block offset i count failure}
    (h : (stringUnits memory block offset i count).2 = some failure) : failure.Stays := by
  induction count generalizing i with
  | zero => cases h
  | succ _ ih =>
    rw [stringUnits] at h
    split at h
    · rename_i failure' hread
      cases h
      exact memory.read_stays _ _ _ hread
    · exact ih h
    · cases h
      rfl

theorem printedString_stays {memory block offset failure} (h : (printedString memory block offset).2 = some failure) :
    failure.Stays := by
  unfold printedString at h
  split at h
  · rename_i failure' hread
    cases h
    exact memory.read_stays _ _ _ hread
  · split at h
    · rename_i failure' hread
      cases h
      exact memory.read_stays _ _ _ hread
    · split at h
      · exact stringUnits_stays h
      · cases h
        rfl
      · dsimp only at h
        split at h <;> cases h
        rfl
      · cases h
        rfl

theorem Routine.print_stays {routine : Routine} {memory values stop} (h : (routine.print memory values).2 = some stop) :
    stop.isAstray = false := by
  unfold Routine.print at h
  cases routine with
  | printNewline => cases h
  | printString =>
    dsimp only at h
    split at h
    · obtain ⟨_, hfailure, rfl⟩ := Option.map_eq_some_iff.mp h
      exact printedString_stays hfailure
    · cases h
      rfl
  | other =>
    cases h
    rfl
  | _ =>
    dsimp only at h
    split at h <;> cases h
    rfl

/-! ## Operations -/

/-- A stop that leads astray comes from reading one of the registers. -/
def Traced (get : Register → Except Stop Value) (registers : List Register) (stop : Stop) : Prop :=
  stop.isAstray = true → ∃ r ∈ registers, get r = .error stop

namespace Traced

variable {α : Type} {get : Register → Except Stop Value} {registers : List Register}

theorem of_not {stop} (h : stop.isAstray = false) : Traced get regs stop := fun hastray => by
  rw [h] at hastray
  cases hastray

theorem of_stays (h : StopsOnly (·.isAstray = false) x) : StopsOnly (Traced get regs) x :=
  h.mono fun _ => of_not

theorem of_mem (hr : r ∈ regs) : StopsOnly (Traced get regs) (get r) :=
  fun _ hstop _ => ⟨r, hr, hstop⟩

theorem number (hr : r ∈ regs) : StopsOnly (Traced get regs) (Operation.number get r) := by
  refine (of_mem hr).bind fun v => ?_
  cases v with
  | number => exact .ok _
  | _ => exact of_stays (.error rfl)

theorem pointer (hr : r ∈ regs) : StopsOnly (Traced get regs) (Operation.pointer get r) := by
  refine (of_mem hr).bind fun v => ?_
  cases v with
  | number => exact of_stays (.error rfl)
  | _ => exact .ok _

theorem place (hr : r ∈ regs) : StopsOnly (Traced get regs) (Operation.place get r) := by
  refine (pointer hr).bind fun v => ?_
  cases v with
  | pointer => exact .ok _
  | _ => exact of_stays (.error rfl)

end Traced

namespace Operation

variable {get : Register → Except Stop Value} {memory : Memory} {operation : Operation} {units : List UInt16}
  {stop : Stop}

/-- Whatever the outcome stops with is so. -/
def Outcome.StopsOnly (P : Stop → Prop) (o : Outcome) : Prop := ∀ units stop, o = .stops units stop → P stop

theorem stopsOnly_assigns {P} (h : StopsOnly P x) : (assigns memory r x).StopsOnly P := by
  intro _ stop hstop
  cases x with
  | ok => cases hstop
  | error =>
    cases hstop
    exact h stop rfl

theorem stopsOnly_reading {α : Type} {P x} {k : α → Outcome} (h : StopsOnly P x) (hk : ∀ a, (k a).StopsOnly P) :
    (reading x k).StopsOnly P := by
  intro units stop hstop
  cases x with
  | ok a => exact hk a units stop hstop
  | error =>
    cases hstop
    exact h stop rfl

/-- An operation leads astray only by what it reads. -/
theorem traced_of_outcome : (operation.outcome get memory).StopsOnly (Traced get operation.reads) := by
  cases operation with
  | loadImmediate | label | goto | addressOf => exact nofun
  | move => exact stopsOnly_assigns (Traced.of_mem (.head _))
  | binary =>
    refine stopsOnly_assigns ((Traced.number (.head _)).bind fun x =>
      (Traced.number (.tail _ (.head _))).bind fun y => ?_)
    exact (Traced.of_stays (evaluateBinary_stays _ _ _ _)).bind fun _ => .ok _
  | compare =>
    refine stopsOnly_assigns ((Traced.of_mem (.head _)).bind fun x =>
      (Traced.of_mem (.tail _ (.head _))).bind fun y => ?_)
    exact (Traced.of_stays (evaluateComparison_stays _ _ _)).bind fun _ => .ok _
  | testZero => exact stopsOnly_assigns ((Traced.of_mem (.head _)).bind fun x => .ok _)
  | convert =>
    refine stopsOnly_assigns (.ite (Traced.pointer (.head _)) ((Traced.number (.head _)).bind fun x => ?_))
    exact (Traced.of_stays (evaluateConversion_stays _ _ _).step).bind fun _ => .ok _
  | step _ reg =>
    refine stopsOnly_assigns (.ite (Traced.of_stays (reg.type.text_stays.step.bind fun _ => .error rfl)) ?_)
    exact (Traced.number (.head _)).bind fun x => (Traced.of_stays (evaluateBinary_stays _ _ _ _)).bind fun _ => .ok _
  | gotoIfFalse => exact stopsOnly_reading (Traced.number (.head _)) fun _ => nofun
  | call target args =>
    have hargs : StopsOnly (Traced get args) (args.mapM get) := .mapM fun r hr => .of_mem hr
    cases target with
    | routine =>
      refine stopsOnly_reading hargs fun values units stop h => ?_
      split at h <;> cases h
      rename_i hprint
      exact .of_not (Routine.print_stays (congrArg Prod.snd hprint))
    | function => exact stopsOnly_reading hargs fun _ => nofun
  | ret reg =>
    cases reg with
    | none => exact nofun
    | some => exact stopsOnly_reading (Traced.of_mem (.head _)) fun _ => nofun
  | arrayIndex =>
    exact stopsOnly_assigns ((Traced.place (.head _)).bind fun x =>
      (Traced.number (.tail _ (.head _))).bind fun y => .ok _)
  | load =>
    refine stopsOnly_reading (Traced.place (.head _)) fun (block, offset) units stop h => ?_
    dsimp only at h
    split at h <;> cases h
    exact .of_not (memory.read_stays _ _ _ ‹_›)
  | store _ value =>
    refine stopsOnly_reading ((Traced.place (.head _)).bind fun _ =>
      (Traced.of_mem (.tail _ (.head _))).bind fun _ => .ok _)
      fun ((block, offset), value) units stop h => ?_
    dsimp only at h
    split at h <;> cases h
    exact .of_not (memory.write_stays _ _ _ _ ‹_›)
  | unknown =>
    intro _ _ h
    cases h
    exact .of_not rfl

end Operation

/-! ## Activations and machines -/

namespace Activation

variable {a : Activation} {memory : Memory} {units : List UInt16} {stop : Stop}

/-- Reading a register leads astray only where it has no value. -/
theorem uninitialized_of_get (h : a.get r = .error stop) (hastray : stop.isAstray = true) :
    a.registers.get? r.id = none ∧
      ∃ name, a.procedure.symbol.text = .ok name ∧ stop = .failure (.uninitialized r.id name) := by
  unfold get at h
  split at h
  · cases h
  · rename_i hnone
    refine ⟨hnone, ?_⟩
    cases htext : a.procedure.symbol.text with
    | ok name =>
      rw [htext] at h
      cases h
      exact ⟨name, rfl, rfl⟩
    | error fault =>
      rw [htext] at h
      cases h
      rw [show (Stop.fault fault).isAstray = false from Symbol.text_stays _ fault htext] at hastray
      cases hastray

theorem past_isAstray (a : Activation) : a.past.isAstray = false := by
  unfold past
  split
  · rfl
  · rename_i fault htext
    exact Symbol.text_stays _ fault htext

/-- An activation whose jumps lead to labels goes astray only by what it reads. -/
theorem reads_of_astray (hjumps : ∀ i ∈ a.procedure.instructions, ∀ name, i.operation.jumpTarget? = some name →
      ∃ j ∈ a.procedure.instructions, j.operation = .label name)
    (h : a.react memory = .stops units stop) (hastray : stop.isAstray = true) :
    ∃ i, a.next? = some i ∧ ∃ r ∈ i.operation.reads, a.get r = .error stop := by
  cases reacts_of_react h with
  | past _ past =>
    rw [← past, a.past_isAstray] at hastray
    cases hastray
  | @strays i e _ next outcome missing =>
    cases ht : e.target with
    | none =>
      rw [ht] at missing
      exact absurd rfl (missing _)
    | some name =>
      obtain ⟨j, hj, hlabel⟩ :=
        hjumps i (List.mem_of_getElem? next) name ((Operation.does_of_outcome outcome).jumpTarget ht)
      obtain ⟨pos, hposn⟩ := exists_labelPlace? hj hlabel
      rw [ht] at missing
      exact absurd hposn (missing pos)
  | stops next outcome => exact ⟨_, next, Operation.traced_of_outcome _ _ outcome hastray⟩

end Activation

/-- The run ends because it went astray. -/
def Ending.isAstray : Ending → Bool
  | .returned .. => false
  | .failed failure _ => (Stop.failure failure).isAstray
  | .faulted fault => fault.isAstray

@[simp] theorem Ending.isAstray_stopped (w : World) (stop : Stop) :
    (Ending.stopped w stop).isAstray = stop.isAstray := by
  cases stop <;> rfl

theorem Machine.wrongArity_isAstray (f : Procedure) (values : List Value) : (wrongArity f values).isAstray = false := by
  unfold wrongArity
  split
  · rfl
  · rename_i fault htext
    exact Symbol.text_stays _ fault htext

/-- A machine that finds the functions it calls goes astray only where its active procedure does. -/
theorem Machine.stops_of_astray {m : Machine} (h : m.advance p = .ended e)
    (hcalls : ∀ symbol values caller dest, m.reaction = .calls symbol values caller dest →
      ∃ f, p.find? symbol = some f) (hastray : e.isAstray = true) :
    ∃ units w stop, m.reaction = .stops units stop ∧ e = .stopped w stop ∧ stop.isAstray = true := by
  cases hr : m.reaction with
  | goesOn =>
    rw [advance_of_goesOn hr] at h
    cases h
  | calls _ values =>
    obtain ⟨f, hf⟩ := hcalls _ _ _ _ hr
    by_cases hl : values.length = f.parameters.length
    · rw [advance_of_calls hr hf hl] at h
      cases h
    · rw [advance_of_calls_wrongArity hr hf hl] at h
      cases h
      rw [Ending.isAstray_stopped, wrongArity_isAstray] at hastray
      cases hastray
  | returns value =>
    cases hc : m.callers with
    | nil =>
      rw [advance_of_returns_nil hr hc] at h
      cases h
      cases hastray
    | cons s =>
      cases ha : s.resume value with
      | none =>
        obtain ⟨stop, he, hstop⟩ := advance_of_returns_none (p := p) hr hc ha
        rw [he] at h
        cases h
        have hnot : stop.isAstray = false := by
          rcases hstop with ⟨_, rfl⟩ | ⟨fault, htext, rfl⟩
          · rfl
          · exact Symbol.text_stays _ fault htext
        rw [Ending.isAstray_stopped, hnot] at hastray
        cases hastray
      | some =>
        rw [advance_of_returns hr hc ha] at h
        cases h
  | stops units stop =>
    obtain ⟨w, he, -⟩ := advance_of_stops (p := p) hr
    rw [he] at h
    cases h
    exact ⟨units, w, stop, rfl, rfl, by rwa [Ending.isAstray_stopped] at hastray⟩

end Retarget
