import Retarget.Proofs.Optimize.Window
import Retarget.Proofs.Run.Orderly

/-!
# Removing instructions

Instructions that change nothing but the place, or that are never reached, may be left out: a register moved
to itself, the way back of a move, a jump to the next instruction, a label without jumps to it, and what
stands behind a jump without a label. So may a step together with the opposite step behind it.
-/
namespace Retarget

open Activation List Operation

/-! ## A single instruction -/

/-- Why an instruction may be left out. -/
inductive Removable (f : Procedure) (pre : List Instruction) (x : Instruction) (post : List Instruction) : Prop
  | selfMove {s t : Register} (operation : x.operation = .move s t) (same : s.id = t.id)
  | label {name : String} (operation : x.operation = .label name)
      (unreferenced : ∀ i ∈ f.instructions, i.operation.jumpTarget? ≠ some name)
  | goto {name : String} (operation : x.operation = .goto name)
      (next : ∃ y rest, post = y :: rest ∧ y.operation = .label name)
  | copyBack {pre' : List Instruction} {w : Instruction} {a b c d : Register} (before : pre = pre' ++ [w])
      (move : w.operation = .move a b) (operation : x.operation = .move c d) (source : a.id = d.id)
      (target : b.id = c.id)
  | unreachable {pre' : List Instruction} {w : Instruction} (before : pre = pre' ++ [w])
      (leaves : (∃ name, w.operation = .goto name) ∨ ∃ r, w.operation = .ret r)
      (operation : x.operation.isLabel = false)

/-- The next instruction does nothing but lead to the place behind it, or fails improperly. -/
structure Idles (start : Nat) (a : Activation) : Prop where
  goesOn : ∀ {next memory memory' units}, a.react memory = .goesOn next memory' units →
    memory' = memory ∧ units = [] ∧ next.procedure = a.procedure ∧ next.position = start + 1 ∧
      ∀ id, next.registers.get? id = a.registers.get? id
  calls : ∀ {memory symbol values caller destination},
    a.react memory ≠ .calls symbol values caller destination
  returns : ∀ {memory value}, a.react memory ≠ .returns value
  stops : ∀ {memory units failure}, a.react memory = .stops units (.failure failure) → ¬failure.IsProper

section
variable {a : Activation} {x : Instruction} {start : Nat} (hn : a.next? = some x)
include hn

/-- An operation that is no call and no return idles if its effects and failures are of no account. -/
theorem idles_of_next (hcall : ∀ symbol args d, x.operation ≠ .call (.function symbol) args d)
    (hret : ∀ r, x.operation ≠ .ret r) (heffect : ∀ {memory e pos}, Does a.get memory x.operation e →
      a.procedure.GoesTo (a.position + 1) e.target pos → e.memory = memory ∧ e.units = [] ∧
        pos = start + 1 ∧ ∀ id, (a.written e.write).registers.get? id = a.registers.get? id)
    (hstops : ∀ {memory units failure},
      x.operation.outcome a.get memory = .stops units (.failure failure) → ¬failure.IsProper) :
    Idles start a where
  goesOn h := by
    obtain ⟨i, e, _, hi, hd, rfl, rfl, hgo, rfl⟩ := goesOn_of_react h
    rw [hn] at hi
    cases hi
    obtain ⟨hm, hu, hp, hregs⟩ := heffect hd hgo
    exact ⟨hm, hu, written_procedure _ _, hp, hregs⟩
  calls h := by
    obtain ⟨i, _, hi, hop, -⟩ := calls_of_react h
    rw [hn] at hi
    cases hi
    exact hcall _ _ _ hop
  returns h := by
    obtain ⟨i, hi, ⟨hop, -⟩ | ⟨r, v, hop, -⟩⟩ := returns_of_react h
    · rw [hn] at hi
      cases hi
      exact hret _ hop
    · rw [hn] at hi
      cases hi
      exact hret _ hop
  stops h := by
    rcases failure_of_react h with ⟨hi, -⟩ | ⟨i, hi, hout⟩
    · rw [hn] at hi
      cases hi
    · rw [hn] at hi
      cases hi
      exact hstops hout

/-- A move between registers that hold the same idles. -/
theorem idles_move (hp : a.position = start) (hop : x.operation = .move s t)
    (hsame : a.registers.get? s.id = a.registers.get? t.id) : Idles start a := by
  refine idles_of_next hn (by rw [hop]; nofun) (by rw [hop]; nofun) ?_ ?_
  · intro memory e _ hd hgo
    rw [hop] at hd
    cases hd with
    | move read =>
      refine ⟨rfl, rfl, by rw [← hp]; exact hgo, fun id => ?_⟩
      rw [show (Effect.assign memory t _).write = some (t, some _) from rfl, get?_written]
      split
      · rename_i hid
        rw [← hid, ← hsame, get_eq_ok.mp read]
      · rfl
  · intro _ _ _ hout
    rw [hop] at hout
    exact move_improper a _ _ hout

theorem idles_label (hp : a.position = start) (hop : x.operation = .label name) : Idles start a := by
  refine idles_of_next hn (by rw [hop]; nofun) (by rw [hop]; nofun) ?_ ?_
  · intro _ e _ hd hgo
    rw [hop] at hd
    cases hd
    exact ⟨rfl, rfl, by rw [← hp]; exact hgo, fun _ => rfl⟩
  · intro _ _ _ hout
    rw [hop] at hout
    cases hout

theorem idles_goto (hop : x.operation = .goto name) (hplace : a.procedure.labelPlace? name = some (start + 1)) :
    Idles start a := by
  refine idles_of_next hn (by rw [hop]; nofun) (by rw [hop]; nofun) ?_ ?_
  · intro _ e _ hd hgo
    rw [hop] at hd
    cases hd
    exact ⟨rfl, rfl, Option.some.inj (hgo.symm.trans hplace), fun _ => rfl⟩
  · intro _ _ _ hout
    rw [hop] at hout
    cases hout

end

/-! ## The window of a removed instruction -/

section
variable {f g : Procedure} {pre post : List Instruction} {x : Instruction} {Good : Activation → Prop}

theorem next?_at_start {a : Activation} (hr : f.Replaces g pre [x] [] post) (hf : a.procedure = f)
    (hp : a.position = pre.length) : a.next? = some x :=
  hr.next?_old hf hp Nat.one_pos

/-- The instruction idles wherever it is reached: always, or else after the one before it, which must then
be the only way to it. -/
def IdlesWhenReached (f : Procedure) (pre : List Instruction) (x : Instruction) : Prop :=
  (∀ a : Activation, a.procedure = f → a.position = pre.length → Idles pre.length a) ∨
    ∃ pre' w, pre = pre' ++ [w] ∧ x.operation.isLabel = false ∧
      (∀ symbol arguments d, w.operation ≠ .call (.function symbol) arguments d) ∧
      ∀ {a : Activation} {memory e}, a.procedure = f → Operation.Does a.get memory w.operation e →
        e.target = none → Idles pre.length { a.written e.write with position := pre.length }

section
variable (hr : f.Replaces g pre [x] [] post)
include hr

theorem Removable.idlesWhenReached
    (hd : (f.instructions.filterMap (·.operation.labelName?)).Nodup) (h : Removable f pre x post) :
    IdlesWhenReached f pre x := by
  cases h with
  | selfMove op same =>
    refine Or.inl fun a hf hp => idles_move (next?_at_start hr hf hp) hp op ?_
    rw [same]
  | label op => exact Or.inl fun a hf hp => idles_label (next?_at_start hr hf hp) hp op
  | @goto _ op next =>
    refine Or.inl fun a hf hp => idles_goto (next?_at_start hr hf hp) op ?_
    obtain ⟨y, _, rfl, hy⟩ := next
    rw [hf]
    refine labelPlace?_of_nodup hd (i := y) ?_ hy
    rw [hr.before, append_assoc, getElem?_append_right (Nat.le_add_right _ 1),
      Nat.add_sub_cancel_left]
    rfl
  | @copyBack pre' w a b c d before move op source target =>
    refine Or.inr ⟨pre', w, before, by rw [op]; rfl, by rw [move]; simp, ?_⟩
    intro activation _ e hf hdoes _
    have hf' : (activation.written e.write).procedure = f := by rw [written_procedure, hf]
    refine idles_move (next?_at_start hr hf' rfl) rfl op ?_
    rw [move] at hdoes
    cases hdoes with
    | move read =>
      show (activation.written (some (b, some _))).registers.get? c.id = _
      simp only [Effect.assign, get?_written, target, ↓reduceIte, ← source,
        get_eq_ok.mp read, ite_self]
  | @unreachable pre' w before leaves op =>
    refine Or.inr ⟨pre', w, before, op, ?_, ?_⟩
    · rcases leaves with ⟨_, hw⟩ | ⟨r, hw⟩ <;> rw [hw] <;> simp
    · intro a _ e _ hdoes htarget
      rcases leaves with ⟨_, hw⟩ | ⟨r, hw⟩
      · rw [hw] at hdoes
        cases hdoes
        cases htarget
      · rw [hw] at hdoes
        cases hdoes

/-- What leads to a place that no jump leads to is the instruction before it. -/
theorem arrives_from_before {a next : Activation} {memory memory' units pre' w}
    (hpre : pre = pre' ++ [w]) (hx : x.operation.isLabel = false) (hf : a.procedure = f)
    (h : a.react memory = .goesOn next memory' units) (hp : next.position = pre.length) :
    ∃ e, Does a.get memory w.operation e ∧ e.target = none ∧
      next = { a.written e.write with position := pre.length } := by
  obtain ⟨i, e, position, hi, hd, -, -, hgo, rfl⟩ := goesOn_of_react h
  obtain rfl : position = pre.length := hp
  cases ht : e.target with
  | none =>
    rw [ht] at hgo
    have hgo : pre.length = a.position + 1 := hgo
    rw [hr.next?_before hpre hf hgo.symm] at hi
    cases hi
    exact ⟨e, hd, ht, rfl⟩
  | some =>
    -- the label of a jump that leads here would be the removed instruction
    rw [ht, hf] at hgo
    have hlabel := (findIdx?_eq_some_iff_getElem.mp hgo)
    obtain ⟨_, hlabel, -⟩ := hlabel
    have hget : f.instructions[pre.length]? = some x := by
      rw [hr.before, append_assoc, getElem?_append_right (Nat.le_refl _), Nat.sub_self]
      rfl
    rw [getElem?_eq_some_iff] at hget
    obtain ⟨_, hget⟩ := hget
    rw [hget, labels_of_not_isLabel hx] at hlabel
    cases hlabel

theorem Removable.window
    (hd : (f.instructions.filterMap (·.operation.labelName?)).Nodup) (h : Removable f pre x post) :
    Window f g pre [x] [] post Good (fun _ => False) (Idles pre.length) (fun _ _ _ => False) where
  replaces := hr
  isolated := by
    refine ⟨fun _ _ _ _ => id, fun {k i name} _ hi hj y hy => ?_⟩
    rw [append_nil, mem_singleton] at hy
    subst hy
    cases h with
    | selfMove op | goto op | copyBack _ _ op => rw [op]; rfl
    | label op unreferenced =>
      cases hl : y.operation.labels name with
      | false => rfl
      | true =>
        rw [op, labels_eq_true] at hl
        cases hl
        exact absurd hj (unreferenced i (mem_of_getElem? hi))
    | unreachable _ _ op => exact labels_of_not_isLabel op name
  start hnil values := by
    rcases h.idlesWhenReached hr hd with halways | ⟨_, w, hpre, -⟩
    · exact halways _ rfl (by rw [hnil]; rfl)
    · rw [hnil] at hpre
      simp at hpre
  arrive hf ha hp := by
    rcases h.idlesWhenReached hr hd with halways | ⟨_, w, hpre, hx, -, hidles⟩
    · obtain ⟨i, e, _, -, -, -, -, -, rfl⟩ := goesOn_of_react ha
      exact halways _ ((written_procedure _ _).trans hf) hp
    · obtain ⟨e, hdoes, ht, rfl⟩ := arrives_from_before hr hpre hx hf ha hp
      exact hidles hf hdoes ht
  resume {a memory symbol values dest} hf ha hp value := by
    obtain ⟨i, _, hi, hop, -, -⟩ := calls_of_react ha
    rcases h.idlesWhenReached hr hd with halways | ⟨_, w, hpre, -, hcall, -⟩
    · refine halways _ ((written_procedure _ _).trans hf) ?_
      rw [written_position]
      exact hp
    · rw [hr.next?_before hpre hf hp] at hi
      cases hi
      exact absurd hop (hcall _ _ _)
  front {memory a b} _ hal hp hidle := {
    goesOn := fun ha => by
      obtain ⟨rfl, rfl, hf, hnext, hregs⟩ := hidle.goesOn ha
      refine Or.inl ⟨Or.inl ⟨⟨hf.trans hal.left, hal.right, Or.inr ⟨?_, ?_⟩, fun id hdead => ?_⟩, ?_⟩, rfl, rfl, ?_⟩
      · exact Nat.le_of_eq hnext.symm
      · rcases hal.place with ⟨-, hb⟩ | ⟨hle, -⟩
        · rw [hnext, hb, hp]
          rfl
        · rw [hp] at hle
          exact absurd hle (Nat.not_succ_le_self _)
      · rw [hal.agree id hdead, hregs id]
      · intro h
        rw [hnext] at h
        exact absurd h (Nat.succ_ne_self _)
      · exact remaining_lt (next?_at_start hr hal.left hp) hf (by rw [hnext, hp]; exact Nat.lt_succ_self _)
    calls := fun ha => absurd ha hidle.calls
    returns := fun ha => absurd ha hidle.returns
    stops := fun ha hproper => absurd hproper (hidle.stops ha) }
  inside _ h := h.elim

end

end

/-! ## A step and the opposite step -/

/-- The opposite step leads back. -/
theorem evaluateBinary_opposite {type} {d d' : Direction} (hd : d ≠ d') (hn : type.isNumeric) {n} (h : type.Holds n) {x}
    (hx : evaluateBinary d.operator type (.dyadic n 0) (.ofNat type.one) = .ok x) :
    evaluateBinary d'.operator type x (.ofNat type.one) = .ok (.dyadic n 0) := by
  cases d <;> cases d'
  · exact absurd rfl hd
  · exact evaluateBinary_add_subtract hn h hx
  · exact evaluateBinary_subtract_add hn h hx
  · exact absurd rfl hd

/-- A step fails only where its register was never assigned, or holds no number. -/
theorem Operation.step_improper (a : Activation) :
    ((step direction r).outcome a.get memory).StopsOnly Stop.IsImproper := by
  have hoperator : direction.operator = .add ∨ direction.operator = .subtract := by
    cases direction
    · exact Or.inl rfl
    · exact Or.inr rfl
  refine stopsOnly_assigns (.ite ((Checked.step_improper _).bind fun _ => .error trivial) ?_)
  exact (number_improper a r).bind fun _ => (evaluateBinary_improper hoperator).bind fun _ => .ok _

/-- Two neighbouring steps of one register may be left out: the second goes back what the first goes. -/
structure Cancels (x y : Instruction) (d d' : Direction) (r s : Register) : Prop where
  first : x.operation = .step d r
  second : y.operation = .step d' s
  opposite : d ≠ d'
  same : r.id = s.id
  type : r.type = s.type

namespace Cancels

variable {f g : Procedure} {pre post : List Instruction} {x y : Instruction} {d d' : Direction}
  {r s : Register} {a b : Activation} {memory : Memory}

/-- The first activation has executed the first step, from where it was aligned with the second. -/
def Inside (f g : Procedure) (start : Nat) (memory : Memory) (a b : Activation) : Prop :=
  ∃ a₀ : Activation, Aligned f g start 2 0 (fun _ => False) a₀ b ∧ a₀.position = start ∧ a₀.Orderly ∧
    a₀.react memory = .goesOn a memory []

/-- A step is neither a call nor a return, and has no failures of account. -/
theorem mirrors_of_step {Frame : Memory → Activation → Activation → Prop} {i} (hn : a.next? = some i)
    (hi : i.operation = .step d r) (hgoesOn : ∀ {x z : Number}, r.type.isNumeric = true → a.get r = .ok (.number x) →
      evaluateBinary d.operator r.type x (.ofNat r.type.one) = .ok z →
      a.react memory = .goesOn { a.written (some (r, some (.number z))) with position := a.position + 1 } memory [] →
      Frame memory { a.written (some (r, some (.number z))) with position := a.position + 1 } b) :
    Mirrors Frame remaining memory a b := by
  obtain ⟨_, _⟩ := i
  subst hi
  cases ho : (step d r).outcome a.get memory with
  | goesOn =>
    cases does_of_outcome ho with
    | @step _ _ _ z type read result =>
      have hgo : a.procedure.GoesTo (a.position + 1) (Effect.assign memory r (.number z)).target (a.position + 1) := rfl
      have hreact := react_of_does hn (.step type read result) hgo
      exact .of_alone hreact (hgoesOn type read result hreact)
        (remaining_lt hn (written_procedure _ _) (Nat.lt_succ_self _))
  | stops => exact .of_improper (react_of_stops hn ho) (step_improper a _ _ ho)
  | calls | returns =>
    simp only [outcome, assigns] at ho
    split at ho <;> cases ho

/-- The second step leads back to where the first began. -/
theorem inside_mirrors (h : Cancels x y d d' r s) (hr : f.Replaces g pre [x, y] [] post)
    {Frame : Memory → Activation → Activation → Prop}
    (hframe : ∀ {memory a b}, Aligned f g pre.length 2 0 (fun _ => False) a b → Frame memory a b)
    (hinside : Inside f g pre.length memory a b) : Mirrors Frame remaining memory a b := by
  obtain ⟨a₀, hal, hp, ho, hreact⟩ := hinside
  obtain ⟨i, e, pos, hi, hd, -, -, hgo, rfl⟩ := goesOn_of_react hreact
  rw [hr.next?_old (k := 0) hal.left hp Nat.two_pos] at hi
  cases hi
  rw [h.first] at hd
  cases hd with
  | @step _ _ m z type read result =>
    obtain rfl : pos = pre.length + 1 := by
      rw [← hp]
      exact hgo
    have hf : (a₀.written (some (r, some (.number z)))).procedure = f := (written_procedure _ _).trans hal.left
    have hb : b.position = pre.length := by
      rcases hal.place with ⟨-, hb⟩ | ⟨hle, -⟩ <;> omega
    refine mirrors_of_step (hr.next?_old (k := 1) hf rfl Nat.one_lt_two) h.second fun _ read' result' _ => ?_
    -- the register holds a number of its type, so the steps cancel
    have hmentioned : r ∈ a₀.procedure.mentioned := by
      exact Procedure.mem_mentioned (hal.left ▸ hr.mem_before (.head _)) (by rw [h.first]; exact .head _)
    obtain ⟨n, hn, hholds⟩ := ho.numbers r hmentioned (Ty.isNumber_of_isNumeric type) _ (get_eq_ok.mp read)
    cases hn
    have hback := evaluateBinary_opposite h.opposite type hholds result
    rw [get_eq_ok] at read'
    have hz := (get?_written a₀ r (some (.number z)) s.id).trans (if_pos h.same)
    cases Option.some.inj (hz.symm.trans read')
    rw [← h.type, hback] at result'
    cases result'
    refine hframe ⟨(written_procedure _ _).trans hf, hal.right, Or.inr ⟨Nat.le_refl _, ?_⟩,
      fun id hdead => ?_⟩
    · show b.position + 2 = pre.length + 1 + 1
      omega
    · rw [hal.agree id hdead]
      refine Eq.trans ?_ (get?_written _ s _ id).symm
      split
      · rename_i hid
        rw [← hid, ← h.same]
        exact get_eq_ok.mp read
      · rename_i hid
        refine ((get?_written a₀ r (some (.number z)) id).trans (if_neg ?_)).symm
        rwa [h.same]

theorem window (h : Cancels x y d d' r s) (hr : f.Replaces g pre [x, y] [] post) :
    Window f g pre [x, y] [] post Orderly (fun _ => False) (fun _ => True)
      (Inside f g pre.length) where
  replaces := hr
  isolated := by
    refine ⟨fun _ _ _ _ => id, fun _ _ _ i hi => ?_⟩
    simp only [append_nil, mem_cons, not_mem_nil, or_false] at hi
    rcases hi with rfl | rfl
    · rw [h.first]
      rfl
    · rw [h.second]
      rfl
  start _ _ := trivial
  arrive _ _ _ := trivial
  resume _ _ _ _ := trivial
  front {memory a b} ho hal hp _ :=
    mirrors_of_step (hr.next?_old (k := 0) hal.left hp Nat.two_pos) h.first fun _ _ _ hreact =>
      Or.inr ⟨a, hal, hp, ho, hreact⟩
  inside _ hin := h.inside_mirrors hr (fun hal => Or.inl ⟨hal, fun _ => trivial⟩) hin

end Cancels

end Retarget
