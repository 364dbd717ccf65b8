import Retarget.Optimize.Peephole
import Retarget.Proofs.Run.Astray
import Retarget.Proofs.Run.Frames

/-!
# Operations in place of others

When an operation has its registers renamed, or two operations are made one, it comes to the same as before,
except that a failure may name another register. Improper failures and faults need not be kept.
-/
namespace Retarget

open Activation Number Peephole

/-! ## Reading registers fails in one way -/

/-- Stops that need not be kept. -/
def Stop.IsImproper : Stop → Prop
  | .failure cause => ¬cause.IsProper
  | .fault _ => True

theorem Checked.step_improper {α : Type} (x : Checked α) : StopsOnly Stop.IsImproper x.step := by
  cases x with
  | ok => exact .ok _
  | error => exact .error trivial

theorem Activation.get_improper (a : Activation) (r : Register) : StopsOnly Stop.IsImproper (a.get r) := by
  unfold get
  split
  · exact .ok _
  · cases a.procedure.symbol.text with
    | ok => exact .error id
    | error => exact .error trivial

theorem Operation.number_improper (a : Activation) (r : Register) : StopsOnly Stop.IsImproper (number a.get r) := by
  refine (a.get_improper r).bind fun v => ?_
  cases v with
  | number => exact .ok _
  | pointer | null => exact .error id

/-- A move fails only where its source was never assigned. -/
theorem Operation.move_improper (a : Activation) :
    ((move source target).outcome a.get memory).StopsOnly Stop.IsImproper :=
  stopsOnly_assigns (a.get_improper source)

/-- Sums and differences do not fail, except by faults. -/
theorem evaluateBinary_improper (ho : operator = .add ∨ operator = .subtract) :
    StopsOnly Stop.IsImproper (evaluateBinary operator type x y) := by
  refine (Checked.step_improper _).bind fun bits => ?_
  cases bits with
  | none => exact (Checked.step_improper _).bind fun _ => .error trivial
  | some => rcases ho with rfl | rfl <;> exact Checked.step_improper _

/-! ## Outcomes that reflect others -/

theorem Register.same_iff {r : Register} : r.same s = true ↔ r.id = s.id := beq_iff_eq

/-- The second computation gives what the first gives, and fails properly where the first does. -/
def Follows {α : Type} (x y : Except Stop α) : Prop :=
  match x with
  | .ok a => y = .ok a
  | .error (.failure failure) =>
    failure.IsProper → ∃ failure', failure.Similar failure' ∧ y = .error (.failure failure')
  | .error (.fault _) => True

namespace Follows

variable {α β : Type} {x y : Except Stop α}

theorem refl (x : Except Stop α) : Follows x x := by
  match x with
  | .ok a => rfl
  | .error (.failure failure) => exact fun _ => ⟨failure, .refl failure, rfl⟩
  | .error (.fault fault) => trivial

theorem of_eq (h : y = x) : Follows x y := h ▸ refl x

theorem bind (h : Follows x y) {k l : α → Except Stop β} (hk : ∀ a, Follows (k a) (l a)) :
    Follows (x >>= k) (y >>= l) := by
  match x with
  | .ok a =>
    obtain rfl : y = .ok a := h
    exact hk a
  | .error (.failure failure) =>
    intro hp
    obtain ⟨failure', hs, rfl⟩ := h hp
    exact ⟨failure', hs, rfl⟩
  | .error (.fault fault) => trivial

end Follows

/-- The second outcome is what the first is; improper failures and faults may become anything. -/
def Operation.Outcome.Reflects : Operation.Outcome → Operation.Outcome → Prop
  | .stops units (.failure failure), outcome =>
    failure.IsProper → ∃ failure', failure.Similar failure' ∧ outcome = .stops units (.failure failure')
  | .stops _ (.fault _), _ => True
  | first, second => second = first

namespace Operation

variable {get : Register → Except Stop Value} {memory : Memory} {φ : Register → Register} {r : Register}

theorem assigns_reflects (h : Follows x y) : (assigns memory r x).Reflects (assigns memory r y) := by
  match x with
  | .ok v =>
    obtain rfl : y = .ok v := h
    rfl
  | .error (.failure failure) =>
    intro hp
    obtain ⟨failure', hs, rfl⟩ := h hp
    exact ⟨failure', hs, rfl⟩
  | .error (.fault fault) => trivial

theorem reflects_refl (outcome : Outcome) : outcome.Reflects outcome := by
  match outcome with
  | .goesOn _ | .calls .. | .returns _ => rfl
  | .stops units (.failure failure) => exact fun _ => ⟨failure, .refl failure, rfl⟩
  | .stops _ (.fault _) => trivial

theorem reading_reflects {α : Type} {x y} {k : α → Outcome} (h : Follows x y) :
    (reading x k).Reflects (reading y k) := by
  match x with
  | .ok a =>
    obtain rfl : y = .ok a := h
    exact reflects_refl _
  | .error (.failure failure) =>
    intro hp
    obtain ⟨failure', hs, rfl⟩ := h hp
    exact ⟨failure', hs, rfl⟩
  | .error (.fault fault) => trivial

end Operation

section
variable {Frame : Memory → Activation → Activation → Prop} {rank : Activation → Nat} {a b : Activation}

/-- The first activation may go on alone. -/
theorem Mirrors.of_alone (h : a.react memory = .goesOn next memory []) (hframe : Frame memory next b)
    (hlt : rank next < rank a) : Mirrors Frame rank memory a b := by
  refine ⟨fun ha => ?_, fun ha => ?_, fun ha => ?_, fun ha => ?_⟩ <;> rw [h] at ha <;> cases ha
  exact Or.inl ⟨hframe, rfl, rfl, hlt⟩

theorem Mirrors.of_improper (h : a.react memory = .stops units stop) (hstop : stop.IsImproper) :
    Mirrors Frame rank memory a b := by
  refine ⟨fun ha => ?_, fun ha => ?_, fun ha => ?_, fun ha hp => ?_⟩ <;> rw [h] at ha <;> cases ha
  exact absurd hp hstop

/-- Activations whose next instructions have reflecting outcomes mirror each other, if what both do keeps them
related. -/
theorem Mirrors.of_reflects (hi : a.next? = some i) (hj : b.next? = some j)
    (ho : (i.operation.outcome a.get memory).Reflects (j.operation.outcome b.get memory))
    (hgoes : ∀ {e position}, Operation.Does a.get memory i.operation e →
      a.procedure.GoesTo (a.position + 1) e.target position →
      ∃ position', b.procedure.GoesTo (b.position + 1) e.target position' ∧
        Frame e.memory { a.written e.write with position } { b.written e.write with position := position' })
    (hcalls : ∀ {symbol values destination}, a.react memory = .calls symbol values a.tick destination →
      ∀ memory' value, Frame memory' (a.tick.written (destination.map (·, value)))
        (b.tick.written (destination.map (·, value)))) : Mirrors Frame rank memory a b where
  goesOn ha := by
    obtain ⟨_, e, _, hi', hd, rfl, rfl, hgo, rfl⟩ := goesOn_of_react ha
    rw [hi] at hi'
    cases hi'
    rw [hd.outcome_eq] at ho
    obtain ⟨_, hgo', hframe⟩ := hgoes hd hgo
    exact Or.inr ⟨_, react_of_does hj (Operation.does_of_outcome ho) hgo', hframe⟩
  calls {symbol values caller destination} ha := by
    obtain ⟨_, _, hi', hop, hvals, rfl⟩ := calls_of_react ha
    rw [hi] at hi'
    cases hi'
    rw [hop] at ho
    simp only [Operation.outcome, Operation.reading, hvals] at ho
    refine ⟨b.tick, destination, ?_, fun callee memory' value resumed hresume => ?_⟩
    · rw [react_eq hj, show Operation.outcome _ _ _ = _ from ho]
      rfl
    · have hframe := hcalls ha memory' value
      rcases Suspended.resume_cases hresume with ⟨hd, rfl⟩ | ⟨r, v, hd, rfl, rfl⟩
      · obtain rfl : destination = none := hd
        exact ⟨_, rfl, hframe⟩
      · obtain rfl : destination = some r := hd
        exact ⟨_, rfl, hframe⟩
  returns ha := by
    obtain ⟨_, hi', hout⟩ := outcome_of_returns ha
    rw [hi] at hi'
    cases hi'
    rw [hout] at ho
    exact react_of_returns hj ho
  stops ha hp := by
    rcases failure_of_react ha with ⟨hn, -⟩ | ⟨_, hi', hout⟩
    · rw [hi] at hn
      cases hn
    · rw [hi] at hi'
      cases hi'
      rw [hout] at ho
      obtain ⟨failure', hs, hout'⟩ := ho hp
      exact ⟨failure', hs, react_of_stops hj hout'⟩

/-- Activations that are both past the end of their procedures mirror each other. -/
theorem Mirrors.of_past (ha : a.next? = none) (hb : b.next? = none) (hsym : b.procedure.symbol = a.procedure.symbol) :
    Mirrors Frame rank memory a b := by
  have heq : b.react memory = a.react memory := by
    rw [react_of_past ha, react_of_past hb]
    simp only [past, hsym]
  refine ⟨fun h => ?_, fun h => ?_, fun h => ?_, fun h _ => ⟨_, .refl _, heq.trans h⟩⟩ <;>
  · rw [react_of_past ha] at h
    cases h

end

namespace Operation

variable {get get' : Register → Except Stop Value} {memory : Memory} {φ : Register → Register} {r r' : Register}

/-! ## Reading something else -/

theorem number_follows (h : Follows (get r) (get' r')) : Follows (number get r) (number get' r') := by
  unfold number
  refine h.bind fun v => ?_
  cases v with
  | number => rfl
  | pointer | null => exact fun h => h.elim

theorem pointer_follows (h : Follows (get r) (get' r')) : Follows (pointer get r) (pointer get' r') := by
  unfold pointer
  refine h.bind fun v => ?_
  cases v with
  | number => exact fun _ => ⟨.holdsNumber r'.id, trivial, rfl⟩
  | pointer | null => rfl

theorem place_follows (h : Follows (get r) (get' r')) : Follows (place get r) (place get' r') := by
  unfold place
  refine (pointer_follows h).bind fun v => ?_
  cases v with
  | pointer => rfl
  | number | null => exact Follows.refl _

theorem mapM_follows {rs : List Register} (h : ∀ r ∈ rs, Follows (get r) (get' (φ r))) :
    Follows (rs.mapM get) ((rs.map φ).mapM get') := by
  induction rs with
  | nil => exact Follows.refl _
  | cons r rs ih =>
    rw [List.map_cons, List.mapM_cons, List.mapM_cons]
    exact (h r (.head _)).bind fun v => (ih fun s hs => h s (.tail _ hs)).bind fun vs => Follows.refl _

/-- An operation that reads other registers, which hold what is read or more, comes to the same. Stepping
writes what it reads, so it is left to read its own register. -/
theorem outcome_mapReads {op : Operation} (hstep : ∀ direction r, op = .step direction r → φ r = r)
    (htype : ∀ r ∈ op.reads, (φ r).type = r.type) (hget : ∀ r ∈ op.reads, Follows (get r) (get' (φ r))) :
    (op.outcome get memory).Reflects ((op.mapReads φ).outcome get' memory) := by
  cases op with
  | move source => exact assigns_reflects (hget source (.head _))
  | convert source =>
    have hsource : (φ source).type = source.type := htype source (.head _)
    simp only [outcome, mapReads, hsource]
    refine assigns_reflects ?_
    split
    · exact pointer_follows (hget source (.head _))
    · exact (number_follows (hget source (.head _))).bind fun _ => Follows.refl _
  | binary _ lhs rhs =>
    exact assigns_reflects ((number_follows (hget lhs (.head _))).bind fun _ =>
      (number_follows (hget rhs (.tail _ (.head _)))).bind fun _ => Follows.refl _)
  | compare _ lhs rhs =>
    exact assigns_reflects ((hget lhs (.head _)).bind fun _ =>
      (hget rhs (.tail _ (.head _))).bind fun _ => Follows.refl _)
  | testZero source => exact assigns_reflects ((hget source (.head _)).bind fun _ => Follows.refl _)
  | step direction reg =>
    have hfix := hstep direction reg rfl
    have hregister := hget reg (.head _)
    rw [hfix] at hregister
    simp only [outcome, mapReads, hfix]
    refine assigns_reflects ?_
    split
    · exact Follows.refl _
    · exact (number_follows hregister).bind fun _ => Follows.refl _
  | gotoIfFalse cond => exact reading_reflects (number_follows (hget cond (.head _)))
  | call target =>
    cases target with
    | routine | function => exact reading_reflects (mapM_follows hget)
  | ret reg =>
    cases reg with
    | none => exact reflects_refl _
    | some reg => exact reading_reflects (hget reg (.head _))
  | arrayIndex base index =>
    exact assigns_reflects ((place_follows (hget base (.head _))).bind fun _ =>
      (number_follows (hget index (.tail _ (.head _)))).bind fun _ => Follows.refl _)
  | load addr => exact reading_reflects (place_follows (hget addr (.head _)))
  | store addr value =>
    exact reading_reflects ((place_follows (hget addr (.head _))).bind fun _ =>
      (hget value (.tail _ (.head _))).bind fun _ => Follows.refl _)
  | loadImmediate | label | goto | addressOf | unknown => exact reflects_refl _

theorem mapReads_id (operation : Operation) : operation.mapReads (fun r => r) = operation := by
  cases operation <;> simp [mapReads]

/-- An operation that reads what it read before, or more, comes to the same. -/
theorem outcome_reflects {op : Operation} (hget : ∀ r ∈ op.reads, Follows (get r) (get' r)) :
    (op.outcome get memory).Reflects (op.outcome get' memory) := by
  have hreflects : (op.outcome get memory).Reflects ((op.mapReads fun r => r).outcome get' memory) :=
    outcome_mapReads (fun _ _ _ => rfl) (fun _ _ => rfl) hget
  rwa [mapReads_id] at hreflects

/-! ## Another destination -/

/-- The outcome with another register in the place of the one that is written. -/
def redirect (target : Register) : Outcome → Outcome
  | .goesOn e => .goesOn { e with write := e.write.map fun w => (target, w.2) }
  | .calls symbol values destination => .calls symbol values (destination.map fun _ => target)
  | outcome => outcome

theorem assigns_redirect (memory : Memory) (r target : Register) (x : Except Stop Value) :
    redirect target (assigns memory r x) = assigns memory target x := by
  cases x <;> rfl

theorem reading_redirect {α : Type} (target : Register) (x : Except Stop α) (k : α → Outcome) :
    redirect target (reading x k) = reading x fun a => redirect target (k a) := by
  cases x <;> rfl

/-- An operation with another destination of the same type does the same, but for where the result goes. -/
theorem outcome_mapWrites {target} (ht : plainDestination? op = some t) (htype : t.type = target.type) :
    (op.mapWrites fun _ => target).outcome get memory =
      redirect target (op.outcome get memory) := by
  cases op with
  | loadImmediate | addressOf => rfl
  | move | compare | testZero | arrayIndex => exact (assigns_redirect _ _ _ _).symm
  | binary _ _ _ dest | convert _ dest =>
    obtain rfl : dest = t := Option.some.inj ht
    simp only [mapWrites, outcome, ← htype]
    exact (assigns_redirect _ _ _ _).symm
  | call callee =>
    cases callee with
    | routine =>
      simp only [mapWrites, outcome, reading_redirect]
      congr 1
      funext values
      split <;> rfl
    | function =>
      simp only [mapWrites, outcome, reading_redirect]
      rfl
  | load =>
    simp only [mapWrites, outcome, reading_redirect]
    congr 1
    funext place
    split <;> rfl
  | step | label | goto | gotoIfFalse | ret | store | unknown => cases ht

end Operation

/-! ## Tests for zero -/

section
variable {type : Ty} {comparison : Comparison} {isUnsigned negated : Bool} {n : Int}

theorem isSigned_of_isUnsigned? (h : isUnsigned? type = some true) : type.isSigned = .ok false := by
  cases type <;> simp_all [isUnsigned?, Ty.isSigned]

theorem isNumber_of_isUnsigned? (h : isUnsigned? type = some isUnsigned) : type.IsNumber := by
  cases type <;> first | exact ⟨_, rfl⟩ | cases h

/-- A comparison with zero on its right or on its left, as a test. -/
theorem evaluateComparison_zero (right : Bool) (hu : isUnsigned? type = some isUnsigned)
    (hz : zeroTest? comparison right isUnsigned = some negated) (h : type.Holds n) :
    evaluateComparison comparison (.number (cond right (.dyadic n 0) 0)) (.number (cond right 0 (.dyadic n 0))) =
      .ok ((dyadic n 0).isZero != negated) := by
  have hsign : isUnsigned = true → 0 ≤ n := by
    rintro rfl
    exact h.nonneg (isSigned_of_isUnsigned? hu)
  have hcomm : decide (0 = n) = decide (n = 0) := decide_eq_decide.mpr eq_comm
  cases right <;> cases comparison <;> cases isUnsigned <;> cases hz <;>
    simp only [evaluateComparison, cond_true, cond_false, zero_eq, eq_dyadic, lt_dyadic,
      le_dyadic, isZero_dyadic, Except.ok.injEq, Bool.bne_false, Bool.bne_true, hcomm, ← decide_not,
      decide_eq_decide] <;>
    have hn := hsign rfl <;> omega

/-- A number that passes for zero is zero. -/
theorem eq_zero_of_isZero {x : Number} (h : x.isZero = true) : x = 0 := by
  cases x with
  | nan => cases h
  | dyadic | infinite => exact eq_of_beq h

end

end Retarget
