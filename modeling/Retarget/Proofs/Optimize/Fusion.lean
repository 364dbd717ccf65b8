import Retarget.Proofs.Optimize.Removal

/-!
# Making two instructions one

Where an instruction computes a temporary that only the next instruction reads, the two can be made one that
does without it. Both procedures then agree on all registers but the temporary. Between the two instructions
the first procedure is ahead: it stands at a place that the second does not have.
-/
namespace Retarget

open Peephole Activation List Operation Register

/-- One operation that does what two do, without the temporary that the first hands to the second. -/
inductive Fuses (t : Register) : Operation → Operation → Operation → Prop
  /-- A result that is moved on goes there at once. -/
  | forward {definition : Operation} {s target : Register} (destination : plainDestination? definition = some t)
      (same : s.id = t.id) (type : t.type = target.type) :
      Fuses t definition (.move s target) (definition.mapWrites fun _ => target)
  /-- A comparison with a constant zero on its right is a test. -/
  | compareRight {value : Number} {comparison : Comparison} {lhs rhs destination : Register}
      {isUnsigned negated : Bool} (zero : value.isZero = true) (same : rhs.id = t.id)
      (other : lhs.id ≠ t.id) (unsigned : isUnsigned? lhs.type = some isUnsigned)
      (test : zeroTest? comparison true isUnsigned = some negated) :
      Fuses t (.loadImmediate value t) (.compare comparison lhs rhs destination)
        (.testZero lhs negated destination)
  /-- A comparison with a constant zero on its left is a test. -/
  | compareLeft {value : Number} {comparison : Comparison} {lhs rhs destination : Register}
      {isUnsigned negated : Bool} (zero : value.isZero = true) (same : lhs.id = t.id)
      (other : rhs.id ≠ t.id) (unsigned : isUnsigned? rhs.type = some isUnsigned)
      (test : zeroTest? comparison false isUnsigned = some negated) :
      Fuses t (.loadImmediate value t) (.compare comparison lhs rhs destination)
        (.testZero rhs negated destination)
  /-- A test whether a difference is zero is a comparison. -/
  | subtract {lhs rhs s destination : Register} {negated : Bool} (same : s.id = t.id) :
      Fuses t (.binary .subtract lhs rhs t) (.testZero s negated destination)
        (.compare (if negated then .ne else .eq) lhs rhs destination)
  /-- What reads a copy can read the original. -/
  | propagate {source : Register} {consumer : Operation} (type : t.type = source.type)
      (other : source.id ≠ t.id) (reads : ∃ r ∈ consumer.reads, r.id = t.id)
      (notStep : ∀ direction r, consumer ≠ .step direction r) :
      Fuses t (.move source t) consumer (consumer.mapReads fun r => if r.same t then source else r)

/-! ## Registers between the two operations -/

/-- What is read before the first operation, what between the two, and what by the one in their place: all the
same but for the temporary. -/
structure Between (t : Register) (e : Effect) (get₀ get₁ get' : Register → Except Stop Value) : Prop where
  middle : ∀ r, r.id ≠ t.id → get₁ r = get₀ r
  fused : ∀ r, r.id ≠ t.id → get' r = get₀ r
  written : ∀ r v, r.id = t.id → e.write = some (t, some v) → get₁ r = .ok v
  erased : ∀ r, r.id = t.id → e.write = some (t, none) →
    ∃ stop, get₁ r = .error stop ∧ ∀ failure, stop = .failure failure → ¬failure.IsProper

/-- Registers of types of numbers hold numbers in the range of the type, as far as they are read. -/
def ReadsInRange (get : Register → Except Stop Value) (operation : Operation) : Prop :=
  ∀ r ∈ operation.reads, r.type.IsNumber → ∀ v, get r = .ok v → ∃ n, v = .number (.dyadic n 0) ∧ r.type.Holds n

/-- A definition writes its destination and changes nothing else. A support routine has no result. -/
theorem write_of_plainDestination? {get : Register → Except Stop Value}
    (ht : plainDestination? definition = some t) (h : Does get memory definition e) :
    (∃ v, e = ⟨some (t, v), none, memory, []⟩) ∨
      ∃ routine args, definition = .call (.routine routine) args (some t) := by
  cases h with
  | @routine routine args dest =>
    obtain rfl : dest = some t := by
      cases dest with
      | none => cases ht
      | some => exact ht
    exact Or.inr ⟨routine, args, rfl⟩
  | step | label | goto | gotoIfFalse | store => cases ht
  | _ =>
    cases ht
    exact Or.inl ⟨_, rfl⟩

/-- A difference fails only where an operand was never assigned, or is no number. -/
theorem Operation.subtract_improper (a : Activation) :
    ((binary .subtract lhs rhs dest).outcome a.get memory).StopsOnly Stop.IsImproper := by
  refine stopsOnly_assigns ((number_improper a lhs).bind fun _ => (number_improper a rhs).bind fun _ => ?_)
  exact (evaluateBinary_improper (Or.inr rfl)).bind fun _ => .ok _

/-! ## The outcome of the second operation -/

namespace Fuses

variable {t : Register} {x y z : Operation} {get₀ get₁ get' : Register → Except Stop Value}
  {memory : Memory} {e : Effect}

section
variable (hb : Between t e get₀ get₁ get')
include hb

theorem reflects_forward {s target}
    (ht : plainDestination? definition = some t) (hs : s.id = t.id) (htype : t.type = target.type)
    (hreads : ∀ r ∈ definition.reads, r.id ≠ t.id) (he : e = ⟨some (t, v), none, memory, []⟩)
    (hd : Does get₀ memory definition e) :
    ((move s target).outcome get₁ memory).Reflects
      ((definition.mapWrites fun _ => target).outcome get' memory) := by
  rw [outcome_mapWrites ht htype,
    outcome_congr (fun r hr => hb.fused r (hreads r hr)), hd.outcome_eq]
  subst he
  cases v with
  | some v =>
    simp only [outcome, hb.written s v hs rfl]
    rfl
  | none =>
    obtain ⟨stop, hstop, himproper⟩ := hb.erased s hs rfl
    simp only [outcome, hstop, assigns]
    cases stop with
    | failure failure => exact fun hp => absurd hp (himproper failure rfl)
    | fault => trivial

theorem reflects_compare (right : Bool) {value source constant} (hzero : value.isZero = true)
    (hsame : constant.id = t.id) (hother : source.id ≠ t.id) (hu : isUnsigned? source.type = some isUnsigned)
    (htest : zeroTest? comparison right isUnsigned = some negated)
    (hrange : ReadsInRange get₀ (.compare comparison (cond right source constant) (cond right constant source) dest))
    (he : e = .assign memory t (.number value)) :
    ((compare comparison (cond right source constant) (cond right constant source) dest).outcome get₁ memory).Reflects
      ((testZero source negated dest).outcome get' memory) := by
  obtain rfl := eq_zero_of_isZero hzero
  have hconstant := hb.written constant (.number 0) hsame (by rw [he]; rfl)
  cases right <;>
  · simp only [outcome, cond_true, cond_false, hb.middle source hother, hb.fused source hother, hconstant]
    refine assigns_reflects ?_
    cases hl : get₀ source with
    | error => exact Follows.refl _
    | ok v =>
      obtain ⟨n, rfl, hn⟩ := hrange source (by simp [reads]) (isNumber_of_isUnsigned? hu) v hl
      have htested := evaluateComparison_zero _ hu htest hn
      simp only [cond_true, cond_false] at htested
      refine Follows.of_eq ?_
      simp only [bind, Except.bind, htested, Value.isZero]

theorem reflects_subtract {lhs rhs s} (hsame : s.id = t.id)
    (hl : lhs.id ≠ t.id) (hr : rhs.id ≠ t.id) (htypes : lhs.type = t.type ∧ rhs.type = t.type)
    (hrange : ReadsInRange get₀ (.binary .subtract lhs rhs t)) (hd : Does get₀ memory (.binary .subtract lhs rhs t) e) :
    ((testZero s negated dest).outcome get₁ memory).Reflects
      ((compare (if negated then .ne else .eq) lhs rhs dest).outcome get' memory) := by
  cases hd with
  | @binary _ _ _ _ a b d left right result =>
    have hn := isNumber_of_evaluateBinary result
    obtain ⟨n, ha, hna⟩ := hrange lhs (.head _) (htypes.1 ▸ hn) _ left
    obtain ⟨m, hm, hmb⟩ := hrange rhs (.tail _ (.head _)) (htypes.2 ▸ hn) _ right
    cases ha
    cases hm
    rw [htypes.1] at hna
    rw [htypes.2] at hmb
    have hz := isZero_evaluateBinary_subtract hna hmb result
    simp only [outcome, hb.written s (.number d) hsame rfl, hb.fused lhs hl, hb.fused rhs hr,
      left, right]
    refine assigns_reflects (Follows.of_eq ?_)
    cases negated <;>
      simp [bind, Except.bind, pure, Except.pure, Value.isZero, hz, evaluateComparison, Number.eq_dyadic]

theorem reflects_propagate {source} {consumer : Operation}
    (htype : ∀ r ∈ consumer.reads, r.id = t.id → source.type = r.type) (hother : source.id ≠ t.id)
    (hstep : ∀ dir r, consumer ≠ .step dir r) (hd : Does get₀ memory (.move source t) e) :
    (consumer.outcome get₁ memory).Reflects
      ((consumer.mapReads fun r => if r.same t then source else r).outcome get' memory) := by
  cases hd with
  | @move _ _ v read =>
    refine outcome_mapReads (fun dir r h => absurd h (hstep dir r)) (fun r hr => ?_)
      fun r _ => Follows.of_eq ?_
    · split
      · rename_i hsame
        exact htype r hr (same_iff.mp hsame)
      · rfl
    · by_cases hr : r.id = t.id
      · rw [if_pos (same_iff.mpr hr), hb.written r v hr rfl, hb.fused source hother, read]
      · rw [if_neg (fun h => hr (same_iff.mp h)), hb.middle r hr, hb.fused r hr]

/-- Where the first operation writes the temporary, the second comes to what the one in their place comes to. -/
theorem reflects (h : Fuses t x y z)
    (hreads : ∀ r ∈ x.reads, r.id ≠ t.id) (htypes : ∀ r ∈ y.reads, r.id = t.id → r.type = t.type)
    (hoperands : ∀ operator l r d, x = .binary operator l r d → l.type = d.type ∧ r.type = d.type)
    (hrange : ReadsInRange get₀ x ∧ ReadsInRange get₀ y)
    (he : e = ⟨some (t, v), none, memory, []⟩) (hd : Does get₀ memory x e) :
    (y.outcome get₁ memory).Reflects (z.outcome get' memory) := by
  cases h with
  | forward destination same type => exact reflects_forward hb destination same type hreads he hd
  | compareRight zero same other unsigned test =>
    cases hd
    exact reflects_compare hb true zero same other unsigned test hrange.2 rfl
  | compareLeft zero same other unsigned test =>
    cases hd
    exact reflects_compare hb false zero same other unsigned test hrange.2 rfl
  | @subtract lhs rhs s _ _ same =>
    exact reflects_subtract hb same (hreads lhs (.head _)) (hreads rhs (.tail _ (.head _)))
      (hoperands _ _ _ _ rfl) hrange.1 hd
  | propagate type other _ notStep =>
    refine reflects_propagate hb (fun r hr hid => ?_) other notStep hd
    rw [← type, htypes r hr hid]

end

theorem plainDestination?_eq (h : Fuses t x y z) : plainDestination? x = some t := by
  cases h with
  | forward dest => exact dest
  | _ => rfl

theorem isLabel_eq (h : Fuses t x y z) : x.isLabel = false ∧ y.isLabel = false ∧ z.isLabel = false := by
  cases h with
  | forward dest => cases x <;> first | exact ⟨rfl, rfl, rfl⟩ | cases dest
  | propagate _ _ reads =>
    obtain ⟨r, hr, -⟩ := reads
    cases y <;> first | exact ⟨rfl, rfl, rfl⟩ | cases hr
  | _ => exact ⟨rfl, rfl, rfl⟩

/-- Only results that are moved on come from calls. -/
theorem of_call (h : Fuses t (.call callee args dest) y z) :
    ∃ s target, dest = some t ∧ y = .move s target ∧ s.id = t.id ∧ t.type = target.type ∧
      z = .call callee args (some target) := by
  cases h with
  | @forward _ s target hd same type =>
    cases dest with
    | none => cases hd
    | some =>
      cases hd
      exact ⟨s, target, rfl, rfl, same, type, rfl⟩

/-- Where the first operation fails properly, the one in place of the two fails alike. -/
theorem stops (h : Fuses t x y z) {a : Activation} (hget : ∀ r ∈ x.reads, get' r = a.get r) {units failure}
    (hx : x.outcome a.get memory = .stops units (.failure failure)) (hp : failure.IsProper) :
    z.outcome get' memory = .stops units (.failure failure) := by
  cases h with
  | forward dest _ type =>
    rw [outcome_mapWrites dest type, outcome_congr hget, hx]
    rfl
  | compareRight | compareLeft => cases hx
  | subtract => exact absurd hp (subtract_improper a _ _ hx)
  | propagate => exact absurd hp (move_improper a _ _ hx)

end Fuses

/-! ## The window of two operations made one -/

/-- Two neighbouring instructions may be made one: the temporary is no parameter, nothing but the second reads
it, and nothing but the first writes it. -/
structure Fusion (f : Procedure) (pre : List Instruction) (x y z : Instruction) (post : List Instruction)
    (t : Register) : Prop where
  fuses : Fuses t x.operation y.operation z.operation
  notParameter : t.id ∉ f.parameterIds
  notRead : ∀ i ∈ pre ++ x :: post, ∀ r ∈ i.operation.reads, r.id ≠ t.id
  notWritten : ∀ i ∈ pre ++ y :: post, ∀ r ∈ i.operation.writes, r.id ≠ t.id
  types : ∀ r ∈ y.operation.reads, r.id = t.id → r.type = t.type
  operands : ∀ operator l r d, x.operation = .binary operator l r d → l.type = d.type ∧ r.type = d.type

namespace Fusion

/-- Activations of which the first has executed the first instruction of the window. -/
inductive Inside (f g : Procedure) (start : Nat) (x y : Instruction) (t : Register) (memory : Memory)
    (a b : Activation) : Prop
  /-- The second is about to execute the instruction that does it all. -/
  | between {a₀ : Activation} (aligned : Aligned f g start 2 1 (· = t.id) a₀ b) (place : a₀.position = start)
      (orderly : a₀.Orderly)
      (notRoutine : ∀ routine arguments d, x.operation ≠ .call (.routine routine) arguments d)
      (step : a₀.react memory = .goesOn a memory [])
  /-- A call has returned to both, and its result has only to be moved on in the first. -/
  | ahead {s target : Register} {v : Value} (left : a.procedure = f) (right : b.procedure = g)
      (place : a.position = start + 1) (place' : b.position = start + 1)
      (second : y.operation = .move s target) (same : s.id = t.id) (type : t.type = target.type)
      (value : a.registers.get? t.id = some v) (value' : b.registers.get? target.id = some v)
      (agree : ∀ id, id ≠ t.id → id ≠ target.id → b.registers.get? id = a.registers.get? id)
  /-- A support routine was called for a result, of which it has none. -/
  | stuck {s target : Register} (left : a.procedure = f) (place : a.position = start + 1)
      (second : y.operation = .move s target) (same : s.id = t.id)
      (unassigned : a.registers.get? t.id = none)

variable {f g : Procedure} {pre post : List Instruction} {x y z : Instruction} {t : Register}
  {a b a₀ : Activation} {memory : Memory}

theorem isLabel_eq (h : Fusion f pre x y z post t) : ∀ i ∈ [x, y] ++ [z], i.operation.isLabel = false := by
  obtain ⟨hx, hy, hz⟩ := h.fuses.isLabel_eq
  simp [hx, hy, hz]

/-- Nothing but the second instruction of the window reads the temporary, and no jump leads into the window. -/
theorem isolated (h : Fusion f pre x y z post t) (hr : f.Replaces g pre [x, y] [z] post) :
    Isolated f pre [x, y] [z] (· = t.id) where
  reads {k i} ho hi r hmem := by
    refine h.notRead i ?_ r hmem
    rw [hr.before, append_assoc] at hi
    rcases ho with hk | hk
    · rw [getElem?_append_left hk] at hi
      exact mem_append_left _ (mem_of_getElem? hi)
    · have hk : pre.length + 2 ≤ k := hk
      rw [getElem?_append_right (by omega), getElem?_append_right (by simp; omega)] at hi
      exact mem_append_right _ (.tail _ (mem_of_getElem? hi))
  jumps _ _ _ i hi := labels_of_not_isLabel (h.isLabel_eq i hi) _

/-- The register that the first instruction writes is the only difference it makes. -/
theorem between_of_written (hr : f.Replaces g pre [x, y] [z] post) (hal : Aligned f g pre.length 2 1 (· = t.id) a₀ b) :
    Between t ⟨some (t, v), none, memory, []⟩ a₀.get
      ({ a₀.written (some (t, v)) with position := k } : Activation).get b.get where
  middle r hne := by
    simp only [Activation.get, get?_written, if_neg (Ne.symm hne), written_procedure]
  fused r hne := hal.get_eq hr hne
  written r w hid hw := by
    cases hw
    rw [get_eq_ok]
    exact (get?_written ..).trans (if_pos hid.symm)
  erased r hid hw := by
    cases hw
    generalize hb : ({ a₀.written (some (t, none)) with position := k } : Activation) = a'
    have hnone : a'.registers.get? r.id = none := by
      subst hb
      exact (get?_written ..).trans (if_pos hid.symm)
    cases hg : a'.get r with
    | ok =>
      rw [get_eq_ok, hnone] at hg
      cases hg
    | error stop =>
      refine ⟨stop, rfl, ?_⟩
      rintro _ rfl
      exact get_improper _ _ _ hg

/-- At the window's start the second activation stands there too. -/
theorem position_eq (hal : Aligned f g pre.length 2 1 (· = t.id) a b) (hp : a.position = pre.length) :
    b.position = pre.length := by
  rcases hal.place with ⟨-, hb⟩ | ⟨hle, -⟩ <;> omega

/-- No register that the procedure does not assign holds a value; the result of a support routine is one. -/
theorem unassigned (h : Fusion f pre x y z post t) (hr : f.Replaces g pre [x, y] [z] post) (hf : a.procedure = f)
    (ho : a.Assigned) (hx : x.operation = .call (.routine routine) args d) : a.registers.get? t.id = none := by
  cases hv : a.registers.get? t.id with
  | none => rfl
  | some =>
    exfalso
    have hassigns := ho _ _ hv
    rw [hf] at hassigns
    rcases hassigns with hparam | ⟨i, hi, r, hmem, hid⟩
    · exact h.notParameter hparam
    · by_cases hix : i = x
      · rw [hix, hx] at hmem
        cases hmem
      · refine h.notWritten i ?_ r (results_subset hmem) hid
        rw [hr.before] at hi
        simpa [hix] using hi

section front
variable (h : Fusion f pre x y z post t) (hr : f.Replaces g pre [x, y] [z] post)
  (hal : Aligned f g pre.length 2 1 (· = t.id) a b) (hp : a.position = pre.length)
include h hr hal hp

omit hp in
/-- The one instruction reads what the first of the two reads. -/
theorem get_first : ∀ r ∈ x.operation.reads, b.get r = a.get r :=
  fun r hmem => hal.get_eq hr (h.notRead x (mem_append_right _ (.head _)) r hmem)

theorem front_goesOn {next} (ho : a.Orderly) (ha : a.react memory = .goesOn next memory' units) :
    (Inside f g pre.length x y t memory' next b ∧ memory' = memory ∧ units = [] ∧
        next.remaining < a.remaining) ∨
      ∃ next', b.react memory = .goesOn next' memory' units ∧
        Inside f g pre.length x y t memory' next next' := by
  have hnext : a.next? = some x := hr.next?_old (k := 0) hal.left hp Nat.two_pos
  obtain ⟨i, e, pos, hi, hd, hmemory, hunits, hgo, hresult⟩ := goesOn_of_react ha
  rw [hnext] at hi
  cases hi
  rcases write_of_plainDestination? h.fuses.plainDestination?_eq hd with
    ⟨v, rfl⟩ | ⟨routine, args, hcall⟩
  · obtain rfl : memory = memory' := hmemory
    obtain rfl : [] = units := hunits
    refine Or.inl ⟨.between hal hp ho ?_ ha, rfl, rfl, ?_⟩
    · intro _ _ d hx
      rw [hx] at hd
      cases hd
    · refine remaining_lt hnext (hresult ▸ written_procedure _ _) ?_
      rw [hresult, show pos = a.position + 1 from hgo]
      exact Nat.lt_succ_self _
  · -- the routine prints the same for the one instruction, and then the second of the two reads nothing
    have hfuses := h.fuses
    rw [hcall] at hfuses
    obtain ⟨s, _, -, hy, hs, -, hz⟩ := hfuses.of_call
    have hd' : Does b.get memory z.operation e := by
      rw [hcall] at hd
      rw [hz]
      cases hd with
      | routine read printed =>
        have hget := h.get_first hr hal
        rw [hcall] at hget
        exact .routine ((mapM_congr hget).trans read) printed
    have htarget : e.target = none := by
      rw [hcall] at hd
      cases hd
      rfl
    have hwrite : e.write = none := by
      rw [hcall] at hd
      cases hd
      rfl
    rw [htarget] at hgo
    rw [hwrite] at hresult
    have hgo' : b.procedure.GoesTo (b.position + 1) e.target (b.position + 1) := by
      rw [htarget]
      rfl
    have hb := react_of_does
      (hr.next?_new (k := 0) hal.right (position_eq hal hp) Nat.one_pos) hd' hgo'
    rw [hmemory, hunits] at hb
    refine Or.inr ⟨_, hb, .stuck ?_ ?_ hy hs ?_⟩
    · rw [hresult]
      exact hal.left
    · rw [hresult, show pos = a.position + 1 from hgo, hp]
    · rw [hresult]
      exact h.unassigned hr hal.left ho.assigned hcall

theorem front_calls (ha : a.react memory = .calls symbol values caller dest) :
    ∃ dest', b.react memory = .calls symbol values b.tick dest' ∧
      ∀ callee memory' value resumed, Suspended.resume ⟨caller, callee, dest⟩ value = some resumed →
        ∃ resumed', Suspended.resume ⟨b.tick, callee, dest'⟩ value = some resumed' ∧
          Inside f g pre.length x y t memory' resumed resumed' := by
  obtain ⟨i, _, hi, hop, hvals, rfl⟩ := calls_of_react ha
  rw [hr.next?_old (k := 0) hal.left hp Nat.two_pos] at hi
  cases hi
  have hfuses := h.fuses
  rw [hop] at hfuses
  obtain ⟨s, target, rfl, hy, hs, htype, hz⟩ := hfuses.of_call
  have hget := h.get_first hr hal
  rw [hop] at hget
  have hb : b.position = pre.length := position_eq hal hp
  refine ⟨some target, react_of_calls (hr.next?_new (k := 0) hal.right hb Nat.one_pos) hz
    ((mapM_congr hget).trans hvals), fun callee memory' value resumed hresume => ?_⟩
  rcases Suspended.resume_cases hresume with ⟨hnone, -⟩ | ⟨r, v, hr', rfl, rfl⟩
  · cases hnone
  · cases hr'
    refine ⟨b.tick.set target v, rfl, .ahead hal.left hal.right ?_ ?_ hy hs htype (v := v) ?_ ?_ ?_⟩
    · exact congrArg (· + 1) hp
    · exact congrArg (· + 1) hb
    · exact (get?_written a.tick t (some v) t.id).trans (if_pos rfl)
    · exact (get?_written b.tick target (some v) target.id).trans (if_pos rfl)
    · intro id ht htarget
      have h₁ := get?_written a.tick t (some v) id
      have h₂ := get?_written b.tick target (some v) id
      rw [if_neg (Ne.symm ht)] at h₁
      rw [if_neg (Ne.symm htarget)] at h₂
      exact h₂.trans ((hal.agree id ht).trans h₁.symm)

theorem front_stops {units failure} (ha : a.react memory = .stops units (.failure failure))
    (hproper : failure.IsProper) :
    b.react memory = .stops units (.failure failure) := by
  rcases failure_of_react ha with ⟨hn, -⟩ | ⟨i, hi, hout⟩
  · rw [hr.next?_old (k := 0) hal.left hp Nat.two_pos] at hn
    cases hn
  · rw [hr.next?_old (k := 0) hal.left hp Nat.two_pos] at hi
    cases hi
    exact react_of_stops (hr.next?_new (k := 0) hal.right (position_eq hal hp) Nat.one_pos)
      (h.fuses.stops (h.get_first hr hal) hout hproper)

theorem front_ne_returns : a.react memory ≠ .returns value := by
  intro ha
  obtain ⟨i, hi, hret⟩ := returns_of_react ha
  rw [hr.next?_old (k := 0) hal.left hp Nat.two_pos] at hi
  cases hi
  have hplain := h.fuses.plainDestination?_eq
  rcases hret with ⟨hop, -⟩ | ⟨r, v, hop, -⟩ <;> rw [hop] at hplain <;> cases hplain

end front

section
variable (hr : f.Replaces g pre [x, y] [z] post)
include hr

/-- Between the two instructions, the second comes to what the one in place of both comes to. -/
theorem between_mirrors (h : Fusion f pre x y z post t)
    {Frame : Memory → Activation → Activation → Prop} {rank : Activation → Nat}
    (hframe : ∀ {memory a b}, Aligned f g pre.length 2 1 (· = t.id) a b → Frame memory a b)
    (hal : Aligned f g pre.length 2 1 (· = t.id) a₀ b) (hp : a₀.position = pre.length) (ho : a₀.Orderly)
    (hx : ∀ routine args d, x.operation ≠ .call (.routine routine) args d)
    (hstep : a₀.react memory = .goesOn a memory []) : Mirrors Frame rank memory a b := by
  obtain ⟨i, e, pos, hi, hd, -, -, hgo, rfl⟩ := goesOn_of_react hstep
  rw [hr.next?_old (k := 0) hal.left hp Nat.two_pos] at hi
  cases hi
  rcases write_of_plainDestination? h.fuses.plainDestination?_eq hd with
    ⟨v, rfl⟩ | ⟨routine, args, hcall⟩
  · obtain rfl : pos = pre.length + 1 := by
      rw [← hp]
      exact hgo
    have hb := position_eq hal hp
    generalize ha : ({ a₀.written (some (t, v)) with position := pre.length + 1 } : Activation) = a at hstep
    have hf : a.procedure = f := by
      rw [← ha]
      exact (written_procedure _ _).trans hal.left
    have hplace : a.position = pre.length + 1 := by rw [← ha]
    have hagree : ∀ id, id ≠ t.id → b.registers.get? id = a.registers.get? id := fun id hne => by
      rw [hal.agree id hne, ← ha]
      exact ((get?_written ..).trans (if_neg (Ne.symm hne))).symm
    have hbehind : Shifted pre.length 2 1 (a.position + 1) (b.position + 1) := Or.inr ⟨by omega, by omega⟩
    have hmem : ∀ i ∈ [x, y], i ∈ a₀.procedure.instructions := fun i hi => hal.left ▸ hr.mem_before hi
    have hrange : ∀ i ∈ [x, y], ReadsInRange a₀.get i.operation := fun i hi r hmention hn w hw =>
      ho.numbers r (Procedure.mem_mentioned (hmem i hi) (mem_append_left _ hmention)) hn w
        (get_eq_ok.mp hw)
    refine .of_reflects (hr.next?_old (k := 1) hf hplace Nat.one_lt_two)
      (hr.next?_new (k := 0) hal.right hb Nat.one_pos) ?_ (fun hd hgo => ?_) fun _ memory' value => ?_
    · rw [← ha]
      exact h.fuses.reflects (between_of_written hr hal)
        (h.notRead x (mem_append_right _ (.head _))) h.types h.operands
        ⟨hrange x (.head _), hrange y (.tail _ (.head _))⟩ rfl hd
    · obtain ⟨pos', hgo', hnext⟩ := Aligned.goesTo hr hf hal.right hbehind hagree
        (fun _ i hi => labels_of_not_isLabel (h.isLabel_eq i hi) _) hgo
      exact ⟨pos', hgo', hframe hnext⟩
    · refine hframe (Aligned.written ?_ _)
      exact ⟨hf, hal.right, hbehind, hagree⟩
  · exact absurd hcall (hx _ _ _)

/-- Where a support routine was called for a result, that cannot be moved on. -/
theorem stops_of_stuck (left : a.procedure = f)
    (place : a.position = pre.length + 1) (second : y.operation = .move s target) (same : s.id = t.id)
    (unassigned : a.registers.get? t.id = none) (memory : Memory) :
    ∃ stop, a.get s = .error stop ∧ a.react memory = .stops [] stop := by
  have hnext : a.next? = some y := hr.next?_old (k := 1) left place Nat.one_lt_two
  cases hg : a.get s with
  | ok =>
    rw [get_eq_ok, same, unassigned] at hg
    cases hg
  | error stop =>
    refine ⟨stop, rfl, react_of_stops hnext ?_⟩
    rw [second]
    simp only [outcome, hg, assigns]

/-- What is inside the window comes out of it behind both instructions, or fails improperly. -/
theorem inside_mirrors (h : Fusion f pre x y z post t)
    {Frame : Memory → Activation → Activation → Prop}
    (hframe : ∀ {memory a b}, Aligned f g pre.length 2 1 (· = t.id) a b → Frame memory a b)
    (hinside : Inside f g pre.length x y t memory a b) : Mirrors Frame remaining memory a b := by
  cases hinside with
  | between aligned place orderly notRoutine step =>
    exact h.between_mirrors hr hframe aligned place orderly notRoutine step
  | @ahead s target v left right place _ second same _ value value' agree =>
    have hnext : a.next? = some y := hr.next?_old (k := 1) left place Nat.one_lt_two
    have hd : Does a.get memory y.operation (.assign memory target v) := by
      rw [second]
      exact .move (by rw [get_eq_ok, same, value])
    have hgo : a.procedure.GoesTo (a.position + 1) (Effect.assign memory target v).target (a.position + 1) := rfl
    have hreact := react_of_does hnext hd hgo
    have hf : (a.written (some (target, some v))).procedure = a.procedure := written_procedure _ _
    refine .of_alone hreact (hframe ⟨hf.trans left, right, Or.inr ⟨?_, ?_⟩, fun id hne => ?_⟩)
      (remaining_lt hnext hf (Nat.lt_succ_self _))
    · show pre.length + 2 ≤ a.position + 1
      omega
    · show b.position + 2 = a.position + 1 + 1
      omega
    · refine Eq.trans ?_ (get?_written a target (some v) id).symm
      split
      · rename_i hid
        rw [← hid, value']
      · rename_i hid
        exact agree id hne (Ne.symm hid)
  | @stuck s _ left place second same unassigned =>
    obtain ⟨_, hstop, hreact⟩ := stops_of_stuck hr left place second same unassigned memory
    exact .of_improper hreact (get_improper _ _ _ hstop)

/-- Two instructions may be made one. -/
theorem window (h : Fusion f pre x y z post t) :
    Window f g pre [x, y] [z] post Orderly (· = t.id) (fun _ => True)
      (Inside f g pre.length x y t) where
  replaces := hr
  isolated := h.isolated hr
  start _ _ := trivial
  arrive _ _ _ := trivial
  resume _ _ _ _ := trivial
  front {memory a b} ho hal hp _ := {
    goesOn := fun ha => by
      rcases h.front_goesOn hr hal hp ho ha with ⟨hin, hrest⟩ | ⟨next', hb, hin⟩
      · exact Or.inl ⟨Or.inr hin, hrest⟩
      · exact Or.inr ⟨next', hb, Or.inr hin⟩
    calls := fun ha => by
      obtain ⟨dest', hb, hwaits⟩ := h.front_calls hr hal hp ha
      refine ⟨_, dest', hb, fun callee memory' value resumed hresume => ?_⟩
      obtain ⟨resumed', hresume', hin⟩ := hwaits callee memory' value resumed hresume
      exact ⟨resumed', hresume', Or.inr hin⟩
    returns := fun ha => absurd ha (h.front_ne_returns hr hal hp)
    stops := fun ha hproper => ⟨_, .refl _, h.front_stops hr hal hp ha hproper⟩ }
  inside _ hin := h.inside_mirrors hr (fun hal => Or.inl ⟨hal, fun _ => trivial⟩) hin

end

end Fusion

end Retarget
