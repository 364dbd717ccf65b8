import Retarget.Proofs.Run.Assigned

/-!
# Stretches of code

Where code has no labels, control can only come from the instruction before. So an activation that is found in
such a stretch has come all the way from its first instruction, however many calls it waited for meanwhile; and a
register that only the first instruction writes holds what was left in it there.
-/
namespace Retarget

open Activation List

/-- Behind the first place and before the last one no label stands, and no instruction writes the register. -/
def Procedure.Quiet (f : Procedure) (id : Numeral) (first last : Nat) : Prop :=
  ∀ (place : Nat) (i : Instruction), first < place → place < last → f.instructions[place]? = some i →
    i.operation.isLabel = false ∧ ∀ r ∈ i.operation.writes, r.id ≠ id

namespace Machine

variable {p : Program} {start d m n : Machine} {f : Procedure} {id : Numeral} {first last : Nat}
  {v : Option Value}

theorem Steps.cycles (h : Steps p k m n) : n.world.cycles = m.world.cycles + k := by
  induction h with
  | refl => rfl
  | head first _ ih =>
    rw [ih, Nat.add_comm _ 1, ← Nat.add_assoc]
    congr 1
    cases moves_of_running first <;> rfl

/-- The activation that was active is still there. If it is active, it is behind the place where it was, no further
than the last one, and the register holds so. -/
def Retains (d : Machine) (id : Numeral) (last : Nat) (v : Option Value) (n : Machine) : Prop :=
  d.callers <:+ n.callers ∧ (n.callers = d.callers → n.active.procedure = d.active.procedure ∧
    d.active.position < n.active.position ∧ n.active.position ≤ last ∧ n.active.registers.get? id = v)

/-- From the one machine the run has come to the other, and the activation has kept the register so. -/
def KeptFrom (p : Program) (d : Machine) (id : Numeral) (last : Nat) (v : Option Value) : Machine → Prop :=
  Relation.TransGen (fun m n => m.advance p = .running n ∧ d.Retains id last v n) d

theorem Retains.above {s rest} (hs : s :: rest <:+ n.callers) (hd : d.callers = rest) : d.Retains id last v n := by
  refine ⟨hd ▸ (suffix_cons s rest).trans hs, fun heq => ?_⟩
  have := hs.length_le
  rw [heq, hd, length_cons] at this
  omega

theorem Retains.mono (h : d.Retains id last v n) (hle : last ≤ last')
    (hv : d.active.position < last → v = v') : d.Retains id last' v' n := by
  refine ⟨h.1, fun heq => ?_⟩
  obtain ⟨hf, hlow, hhigh, hget⟩ := h.2 heq
  exact ⟨hf, hlow, hhigh.trans hle, hget.trans (hv (hlow.trans_le hhigh))⟩

theorem KeptFrom.mono (h : KeptFrom p d id last v m) (hle : last ≤ last')
    (hv : d.active.position < last → v = v') : KeptFrom p d id last' v' m :=
  Relation.TransGen.mono (fun _ _ hstep => ⟨hstep.1, hstep.2.mono hle hv⟩) _ _ h

theorem KeptFrom.steps (h : KeptFrom p d id last v m) : ∃ k, Steps p k d m := by
  induction h with
  | single hstep => exact ⟨1, .single hstep.1⟩
  | tail _ hstep ih =>
    obtain ⟨k, hk⟩ := ih
    exact ⟨k + 1, hk.tail hstep.1⟩

/-- The run has come from the procedure's first place, and its activation has kept the register so. -/
def KeptSince (p : Program) (start : Machine) (f : Procedure) (id : Numeral) (first : Nat) (callers : List Suspended)
    (last : Nat) (v : Option Value) (m : Machine) : Prop :=
  ∃ k d, Steps p k start d ∧ d.active.procedure = f ∧ d.active.position = first ∧ d.callers = callers ∧
    KeptFrom p d id last v m

/-- Every activation of the procedure that is within the stretch has come from its first place. One that waits may
be waiting for the register's value only there. -/
structure Stretches (p : Program) (start : Machine) (f : Procedure) (id : Numeral) (first last : Nat) (m : Machine) :
    Prop where
  reached : ∃ k, Steps p k start m
  active : m.active.procedure = f → first < m.active.position → m.active.position < last →
    KeptSince p start f id first m.callers m.active.position (m.active.registers.get? id) m
  waiting : ∀ s rest, s :: rest <:+ m.callers → s.activation.procedure = f → first < s.activation.position →
    s.activation.position < last →
    KeptSince p start f id first rest (s.activation.position - 1) (s.activation.registers.get? id) m ∧
      ∀ r, s.destination = some r → r.id = id → s.activation.position = first + 1

theorem Retains.here (hf : n.active.procedure = d.active.procedure) (hd : d.callers = n.callers)
    (hlow : d.active.position < n.active.position) : d.Retains id n.active.position (n.active.registers.get? id) n :=
  ⟨hd ▸ suffix_refl _, fun _ => ⟨hf, hlow, Nat.le_refl _, rfl⟩⟩

theorem KeptSince.tail {callers last' v'} (h : KeptSince p start f id first callers last v m)
    (ha : m.advance p = .running n) (hle : last ≤ last') (hv : first < last → v = v')
    (hn : ∀ d : Machine, d.active.procedure = f → d.active.position = first → d.callers = callers →
      d.Retains id last' v' n) :
    KeptSince p start f id first callers last' v' n := by
  obtain ⟨k, d, hk, hf, hd, hcallers, hkept⟩ := h
  exact ⟨k, d, hk, hf, hd, hcallers, (hkept.mono hle fun hlt => hv (hd ▸ hlt)).tail ⟨ha, hn d hf hd hcallers⟩⟩

/-- What is kept of the active procedure at its first place, or behind it. -/
theorem Stretches.extend (h : Stretches p start f id first last m) (ha : m.advance p = .running n)
    (hf : m.active.procedure = f) (hlow : first ≤ m.active.position) (hhigh : m.active.position < last) {last'}
    (hle : m.active.position ≤ last') (hv : first < m.active.position → m.active.registers.get? id = v)
    (hn : ∀ d : Machine, d.active.procedure = f → d.active.position = first → d.callers = m.callers →
      d.Retains id last' v n) :
    KeptSince p start f id first m.callers last' v n := by
  rcases hlow.eq_or_lt with heq | hlt
  · obtain ⟨k, hk⟩ := h.reached
    exact ⟨k, m, hk, hf, heq.symm, rfl, .single ⟨ha, hn m hf heq.symm rfl⟩⟩
  · exact (h.active hf hlt hhigh).tail ha hle (fun _ => hv hlt) hn

theorem Stretches.step (hq : f.Quiet id first last) (h : Stretches p start f id first last m)
    (ha : m.advance p = .running n) : Stretches p start f id first last n := by
  obtain ⟨k, hk⟩ := h.reached
  have hreached : ∃ k, Steps p k start n := ⟨k + 1, hk.tail ha⟩
  have hwrites : ∀ {i}, m.next? = some i → m.active.procedure = f → first < m.active.position →
      m.active.position < last → ∀ r ∈ i.operation.writes, r.id ≠ id :=
    fun hi hf hlow hhigh => (hq _ _ hlow hhigh (hf ▸ hi)).2
  have hstill : ∀ s rest, s :: rest <:+ n.callers → s :: rest <:+ m.callers →
      s.activation.procedure = f → first < s.activation.position → s.activation.position < last →
      KeptSince p start f id first rest (s.activation.position - 1) (s.activation.registers.get? id) n ∧
        ∀ r, s.destination = some r → r.id = id → s.activation.position = first + 1 := by
    intro s rest hn hm hf hlow hhigh
    obtain ⟨hkept, hdest⟩ := h.waiting s rest hm hf hlow hhigh
    exact ⟨hkept.tail ha (Nat.le_refl _) (fun _ => rfl) fun d _ _ hd => .above hn hd, hdest⟩
  cases moves_of_running ha with
  | goesOn reaction =>
    obtain ⟨i, e, pos, hi, hd, -, -, hgo, rfl⟩ := goesOn_of_react reaction
    refine ⟨hreached, fun hf hlow hhigh => ?_, fun s rest hs => hstill s rest hs hs⟩
    have hf' : m.active.procedure = f := (written_procedure m.active e.write).symm.trans hf
    cases ht : e.target with
    | none =>
      rw [ht] at hgo
      obtain rfl : pos = m.active.position + 1 := hgo
      refine h.extend ha hf' (Nat.le_of_lt_succ hlow) (Nat.lt_of_succ_lt hhigh) (Nat.le_succ _) (fun hlt => ?_)
        fun d hdf hfirst hcallers => .here (hf.trans hdf.symm) hcallers (hfirst ▸ hlow)
      match hw : e.write with
      | none => rfl
      | some (r, v) =>
        have hr := hwrites hi hf' hlt (Nat.lt_of_succ_lt hhigh) r (hd.mem_writes hw)
        exact ((m.active.get?_written r v id).trans (if_neg hr)).symm
    | some =>
      -- a jump leads to a label, and there is none
      rw [ht, hf'] at hgo
      obtain ⟨hlt, hlabels, -⟩ := findIdx?_eq_some_iff_getElem.mp hgo
      have hlabel := (hq pos _ hlow hhigh (getElem?_eq_getElem hlt)).1
      rw [Operation.eq_label (Operation.labels_eq_true.mp hlabels)] at hlabel
      cases hlabel
  | @calls _ _ _ _ g reaction =>
    obtain ⟨i, _, hi, hop, -, rfl⟩ := calls_of_react reaction
    refine ⟨hreached, fun _ hlow _ => absurd hlow (Nat.not_lt_zero _), fun s rest hs hf hlow hhigh => ?_⟩
    rcases suffix_cons_iff.mp hs with heq | hs'
    · cases heq
      refine ⟨h.extend ha hf (Nat.le_of_lt_succ hlow) (Nat.lt_of_succ_lt hhigh) (Nat.le_refl _) (fun _ => rfl)
        fun d _ _ hcallers => .above hs hcallers, fun r hr hid => ?_⟩
      by_contra hne
      refine hwrites hi hf (Nat.lt_of_succ_lt_succ (Nat.lt_of_le_of_ne hlow (Ne.symm hne)))
        (Nat.lt_of_succ_lt hhigh) r ?_ hid
      rw [hop]
      exact Option.mem_toList.mpr hr
    · exact hstill s rest hs hs' hf hlow hhigh
  | @returns _ s rest a _ callers resumed =>
    have hcallers := suffix_cons s rest
    rw [← callers] at hcallers
    refine ⟨hreached, fun hf hlow hhigh => ?_, fun s' rest' hs => hstill s' rest' hs (hs.trans hcallers)⟩
    obtain ⟨hproc, hposn⟩ := Suspended.resume_eq resumed
    change a.procedure = f at hf
    change first < a.position at hlow
    change a.position < last at hhigh
    rw [hproc] at hf
    rw [hposn] at hlow hhigh
    obtain ⟨hkept, hdest⟩ := h.waiting s rest (callers ▸ suffix_refl _) hf hlow hhigh
    refine hkept.tail ha (hposn ▸ Nat.sub_le _ _) (fun hlt => ?_) fun d hdf hfirst hd =>
      .here (hproc.trans (hf.trans hdf.symm)) hd (hfirst ▸ hposn ▸ hlow)
    rcases Suspended.resume_cases resumed with ⟨-, rfl⟩ | ⟨r, v, hr, -, rfl⟩
    · rfl
    · have hne : r.id ≠ id := fun hid => by
        have := hdest r hr hid
        omega
      exact ((Assoc.get?_set _ _ _ _).trans (if_neg hne)).symm

/-- An activation that is found within a quiet stretch has come from the first place, and has kept the register
since. -/
theorem keptFrom_of_mem_machines (hq : f.Quiet id first last)
    (hm : m ∈ p.machines symbol args limit) (hf : m.active.procedure = f) (hlow : first < m.active.position)
    (hhigh : m.active.position < last) :
    ∃ d ∈ p.machines symbol args limit, d.active.procedure = f ∧ d.active.position = first ∧
      d.callers = m.callers ∧ KeptFrom p d id m.active.position (m.active.registers.get? id) m := by
  obtain ⟨g, k, hg, hl, hk, hsteps⟩ := Program.mem_machines.mp hm
  have hstart : Stretches p (p.startOf g args) f id first last (p.startOf g args) :=
    ⟨⟨0, .refl _⟩, fun _ hlow _ => absurd hlow (Nat.not_lt_zero _),
      fun s rest hs => absurd (suffix_nil.mp hs) (cons_ne_nil _ _)⟩
  obtain ⟨j, d, hj, hdf, hfirst, hcallers, hkept⟩ :=
    (hsteps.invariant (fun h ha => Stretches.step hq h ha) hstart).active hf hlow hhigh
  obtain ⟨l, hl'⟩ := hkept.steps
  have hcycles := hsteps.cycles
  rw [hl'.cycles, hj.cycles] at hcycles
  exact ⟨d, Program.mem_machines.mpr ⟨g, j, hg, hl, by omega, hj⟩, hdf, hfirst, hcallers, hkept⟩

end Machine

end Retarget
