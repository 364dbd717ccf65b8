import Retarget.Proofs.Assoc
import Retarget.Proofs.Code.Assigned
import Retarget.Proofs.Run.Astray
import Retarget.Proofs.Run.Stack

/-!
# Registers are assigned in every run

Where code is followed with the registers that are assigned for certain, these have values in every run. There is
one exception: an address inside a block, but between its cells, holds nothing, and a load from it leaves its
register without a value. So a register that is read without a value is one that such a load came before for.
-/
namespace Retarget

open Activation List Machine Operation Procedure

def Activation.held (a : Activation) : Set Numeral := {id | ∃ v, a.registers.get? id = some v}

/-- The procedure goes on with registers that have values, and with others that are named. -/
def Activation.FlowsWith (others : Set Numeral) (a : Activation) : Prop :=
  ∃ entries, Flows entries {id | id ∈ a.procedure.parameterIds} a.procedure.operations ∅ ∧
    Flows entries (a.held ∪ others) (a.procedure.operations.drop a.position) ∅

/-- The next instruction loads from an address at which its block holds nothing, and leaves the register without a
value. -/
def Machine.MissesLoad (m : Machine) (id : Numeral) : Prop :=
  ∃ i address destination block offset, m.next? = some i ∧ i.operation = .load address destination ∧
    destination.id = id ∧ m.active.get address = .ok (.pointer block offset) ∧
    m.world.memory.read block offset = .ok none

/-! ## Operations -/

theorem Operation.Does.exists_write {get : Register → Except Stop Value}
    (h : Does get memory op e) (hr : r ∈ op.results) : ∃ v, e.write = some (r, v) := by
  cases h with
  | label | goto | gotoIfFalse | routine | store => cases hr
  | _ =>
    obtain rfl := mem_singleton.mp hr
    exact ⟨_, rfl⟩

theorem Operation.Does.stays {get : Register → Except Stop Value}
    (h : Does get memory op e) (ht : e.target = none) : op.leaves = false := by
  cases h <;> first | rfl | cases ht

theorem Operation.Does.write_of_target {get : Register → Except Stop Value}
    (h : Does get memory op e) (ht : e.target = some name) : e.write = none := by
  cases h <;> first | rfl | cases ht

/-- A jump leads to a label of the name. -/
theorem Procedure.operations_of_labelPlace? {f : Procedure} (h : f.labelPlace? name = some k) :
    f.operations.drop k = .label name :: f.operations.drop (k + 1) := by
  obtain ⟨hlt, hlabels, -⟩ := findIdx?_eq_some_iff_getElem.mp h
  have hlt' : k < f.operations.length := by simpa [operations] using hlt
  rw [drop_eq_getElem_cons hlt']
  simp only [operations, getElem_map, eq_label (labels_eq_true.mp hlabels)]

namespace Activation

variable {a : Activation} {others : Set Numeral}

theorem operations_drop (h : a.next? = some i) :
    a.procedure.operations.drop a.position = i.operation :: a.procedure.operations.drop (a.position + 1) := by
  obtain ⟨hlt, hi⟩ := List.getElem?_eq_some_iff.mp h
  have hlt' : a.position < a.procedure.operations.length := by simpa [operations] using hlt
  rw [drop_eq_getElem_cons hlt']
  simp only [operations, getElem_map, hi]

theorem mem_held_set {r v id} (h : id ∈ a.held ∨ r.id = id) : id ∈ (a.set r v).held := by
  have hget : (a.set r v).registers.get? id = if r.id = id then some v else a.registers.get? id :=
    Assoc.get?_set _ _ _ _
  by_cases hid : r.id = id
  · exact ⟨v, by rw [hget, if_pos hid]⟩
  · obtain ⟨w, hw⟩ := h.resolve_right hid
    exact ⟨w, by rw [hget, if_neg hid, hw]⟩

/-- What has a value keeps one, unless it is named, and so does what is given one. -/
theorem subset_held_written {w given} (hgiven : ∀ id ∈ given, ∃ r v, w = some (r, v) ∧ r.id = id)
    (hlost : ∀ r, w = some (r, none) → r.id ∈ others) : a.held ∪ others ∪ given ⊆ (a.written w).held ∪ others := by
  rintro id ((hid | hid) | hid)
  · rcases w with _ | ⟨r, _ | v⟩
    · exact Or.inl hid
    · by_cases hr : r.id = id
      · exact Or.inr (hr ▸ hlost r rfl)
      · obtain ⟨v, hv⟩ := hid
        exact Or.inl ⟨v, by rw [get?_written, if_neg hr, hv]⟩
    · exact Or.inl (mem_held_set (Or.inl hid))
  · exact Or.inr hid
  · obtain ⟨r, _ | v, rfl, hr⟩ := hgiven id hid
    · exact Or.inr (hr ▸ hlost r rfl)
    · exact Or.inl (mem_held_set (Or.inr hr))

/-- What the procedure reads next has a value, or is named. -/
theorem FlowsWith.mem_of_read (h : a.FlowsWith others) (hi : a.next? = some i) (hr : r ∈ i.operation.reads) :
    r.id ∈ a.held ∪ others := by
  obtain ⟨_, -, hflows⟩ := h
  rw [operations_drop hi] at hflows
  exact hflows.1.reads r hr

theorem FlowsWith.start {f : Procedure} (hf : f.Prepared) {values} (hl : values.length = f.parameters.length)
    (others : Set Numeral) : (f.activation values).FlowsWith others := by
  obtain ⟨entries, hflows⟩ := hf.flows
  refine ⟨entries, hflows, hflows.mono (fun id hid => Set.mem_union_left _ ?_) subset_rfl⟩
  have hle : f.parameterIds.length ≤ values.length := by simp [parameterIds, hl]
  exact Assoc.exists_get?_ofPairs (by rwa [map_fst_zip hle])

/-- A procedure that waits goes on with the register that the value is for. -/
theorem FlowsWith.resume {s : Suspended} {value}
    (h : s.activation.FlowsWith (others ∪ {id | ∃ r, s.destination = some r ∧ r.id = id}))
    (ha : s.resume value = some a) : a.FlowsWith others := by
  obtain ⟨entries, hwhole, hflows⟩ := h
  rcases Suspended.resume_cases ha with ⟨hnone, rfl⟩ | ⟨r, v, hr, -, rfl⟩
  · refine ⟨entries, hwhole, hflows.mono ?_ subset_rfl⟩
    simp [hnone]
  · refine ⟨entries, hwhole, hflows.mono ?_ subset_rfl⟩
    rintro id (hid | hid | ⟨r', hr', hid⟩)
    · exact Or.inl (mem_held_set (Or.inl hid))
    · exact Or.inr hid
    · cases hr.symm.trans hr'
      exact Or.inl (mem_held_set (Or.inr hid))

/-- A procedure that waits for another one goes on behind the call. -/
theorem FlowsWith.calls (h : a.FlowsWith others) {i symbol args dest} (hi : a.next? = some i)
    (hop : i.operation = .call (.function symbol) args dest) :
    a.tick.FlowsWith (others ∪ {id | ∃ r, dest = some r ∧ r.id = id}) := by
  obtain ⟨entries, hwhole, hflows⟩ := h
  rw [operations_drop hi, hop] at hflows
  refine ⟨entries, hwhole, (hflows.tail rfl).mono ?_ subset_rfl⟩
  rintro id ((hid | hid) | ⟨r, hr, hid⟩)
  · exact Or.inl hid
  · exact Or.inr (Or.inl hid)
  · exact Or.inr (Or.inr ⟨r, Option.mem_toList.mp hr, hid⟩)

/-- A procedure goes on, given that a register which is left without a value is named. -/
theorem FlowsWith.goesOn (h : a.FlowsWith others) {i : Instruction} {memory e position} (hi : a.next? = some i)
    (hd : Does a.get memory i.operation e) (hgo : a.procedure.GoesTo (a.position + 1) e.target position)
    (hlost : ∀ r, e.write = some (r, none) → r.id ∈ others) : FlowsWith others { a.written e.write with position } := by
  obtain ⟨entries, hwhole, hflows⟩ := h
  rw [operations_drop hi] at hflows
  refine ⟨entries, ?_, ?_⟩
  · rw [written_procedure]
    exact hwhole
  · show Flows entries ((a.written e.write).held ∪ others) ((a.written e.write).procedure.operations.drop position) ∅
    rw [written_procedure]
    cases ht : e.target with
    | none =>
      rw [ht] at hgo
      obtain rfl : position = a.position + 1 := hgo
      refine (hflows.tail (hd.stays ht)).mono (subset_held_written ?_ hlost) subset_rfl
      rintro _ ⟨r, hr, hid⟩
      obtain ⟨v, hv⟩ := hd.exists_write hr
      exact ⟨r, v, hv, hid⟩
    | some name =>
      rw [ht] at hgo
      have hlabel := operations_of_labelPlace? hgo
      rw [← take_append_drop position a.procedure.operations, hlabel] at hwhole
      rw [hd.write_of_target ht, hlabel]
      exact hwhole.jump (hflows.1.meets name (Or.inl (hd.jumpTarget ht)))

end Activation

/-! ## Runs -/

namespace Machine

variable {p : Program} {start m n : Machine}

/-- The registers that loads of the procedure left without values, in the run from a machine on and under the same
callers. -/
def lost (p : Program) (start : Machine) (procedure : Procedure) (callers : List Suspended) : Set Numeral :=
  {id | ∃ k m, Steps p k start m ∧ m.MissesLoad id ∧ m.active.procedure = procedure ∧ m.callers = callers}

/-- All activations of the machine go on with registers that have values, those apart that loads left without. -/
structure FlowsOn (p : Program) (start m : Machine) : Prop where
  reached : ∃ k, Steps p k start m
  active : m.active.FlowsWith (lost p start m.active.procedure m.callers)
  callers : ∀ s rest, s :: rest <:+ m.callers → s.activation.FlowsWith
    (lost p start s.activation.procedure rest ∪ {id | ∃ r, s.destination = some r ∧ r.id = id})

theorem missesLoad_of_does (hi : m.next? = some i)
    (hd : Does m.active.get m.world.memory i.operation e) (hw : e.write = some (r, none)) : m.MissesLoad r.id := by
  generalize hop : i.operation = op at hd
  cases hd with
  | load place read =>
    cases hw
    exact ⟨i, _, _, _, _, hi, hop, rfl, place, read⟩
  | _ => cases hw

theorem FlowsOn.step (hp : ∀ f ∈ p.procedures, f.Prepared) (h : FlowsOn p start m)
    (ha : m.advance p = .running n) : FlowsOn p start n := by
  obtain ⟨k, hk⟩ := h.reached
  have hn : ∃ k, Steps p k start n := ⟨k + 1, hk.tail ha⟩
  cases moves_of_running ha with
  | goesOn reaction =>
    obtain ⟨i, e, _, hi, hd, -, -, hgo, rfl⟩ := goesOn_of_react reaction
    refine ⟨hn, ?_, h.callers⟩
    show FlowsWith (lost p start (m.active.written e.write).procedure m.callers) _
    rw [written_procedure]
    refine h.active.goesOn hi hd hgo fun r hw => ?_
    exact ⟨k, m, hk, missesLoad_of_does hi hd hw, rfl, rfl⟩
  | @calls _ _ _ _ f reaction found arity =>
    obtain ⟨i, _, hi, hop, -, rfl⟩ := calls_of_react reaction
    refine ⟨hn, .start (hp f (Program.mem_of_find? found).1) arity _, fun s rest hs => ?_⟩
    rcases suffix_cons_iff.mp hs with heq | hs
    · cases heq
      exact h.active.calls hi hop
    · exact h.callers s rest hs
  | @returns _ s rest a _ callers resumed =>
    have hcallers := h.callers
    rw [callers] at hcallers
    have ha := (hcallers s rest (suffix_refl _)).resume resumed
    rw [← (Suspended.resume_eq resumed).1] at ha
    exact ⟨hn, ha, fun s' rest' hs => hcallers s' rest' (hs.trans (suffix_cons s rest))⟩

end Machine

/-- The procedures read only what is assigned, and what they call is there. -/
structure Program.Prepared (p : Program) : Prop where
  procedures : ∀ f ∈ p.procedures, f.Prepared
  linked : ∀ f ∈ p.procedures, ∀ symbol ∈ f.callees, ∃ g, p.find? symbol = some g

namespace Machine

variable {p : Program} {start n : Machine} {e : Ending}

/-- A run goes astray only by reading a register that a load left without a value. -/
theorem FlowsOn.uninitialized (h : FlowsOn p start n) (hp : p.Prepared) (hn : n.active.procedure ∈ p.procedures)
    (he : n.advance p = .ended e) (hastray : e.isAstray = true) :
    ∃ id name w, e = .failed (.uninitialized id name) w ∧ n.active.procedure.symbol.text = .ok name ∧
      id ∈ lost p start n.active.procedure n.callers := by
  obtain ⟨_, w, _, hr, rfl, hstop⟩ := stops_of_astray he (fun symbol values caller dest hcalls => by
    obtain ⟨i, args, hi, hop, -, -⟩ := calls_of_react hcalls
    refine hp.linked _ hn symbol (mem_callees.mpr ?_)
    exact ⟨i, mem_of_getElem? hi, args, dest, hop⟩) hastray
  obtain ⟨i, hi, r, hread, hget⟩ := reads_of_astray (hp.procedures _ hn).jumps hr hstop
  obtain ⟨hnone, name, htext, rfl⟩ := uninitialized_of_get hget hstop
  refine ⟨r.id, name, w, rfl, htext, (h.active.mem_of_read hi hread).resolve_left ?_⟩
  rintro ⟨v, hv⟩
  rw [hnone] at hv
  cases hv

end Machine

namespace Program

variable {p : Program}

/-- A run that goes astray has started, and has come to a machine that ended it so. -/
theorem exists_ending (p : Program) (symbol : Symbol) (args : List Value) (limit : Number) :
    ∃ e, p.runFunction symbol args limit = e.result ∧ (e.isAstray = true → ∃ f k n, p.find? symbol = some f ∧
      args.length = f.parameters.length ∧ k ≤ cyclesAllowed limit ∧
      Steps p k (p.startOf f args) n ∧ n.advance p = .ended e) := by
  cases hf : p.find? symbol with
  | none =>
    rw [runFunction_of_none hf]
    cases htext : symbol.text with
    | ok text => exact ⟨.failed (.noFunction text) p.initialWorld, rfl, nofun⟩
    | error fault =>
      refine ⟨.faulted fault, rfl, fun hastray => ?_⟩
      rw [show (Ending.faulted fault).isAstray = false from Symbol.text_stays _ fault htext] at hastray
      cases hastray
  | some f =>
    by_cases hl : args.length = f.parameters.length
    · rw [runFunction_of_some hf hl]
      refine ⟨_, rfl, fun hastray => ?_⟩
      rcases run_cases p limit (cyclesAllowed limit) (p.startOf f args) with
        ⟨k, n, e, hle, hs, he, hr⟩ | ⟨n, hs, hr⟩
      · rw [hr limit _ (Nat.le_refl _)]
        exact ⟨f, k, n, rfl, hl, hle, hs, he⟩
      · rw [hr] at hastray
        cases hastray
    · rw [runFunction_of_wrongArity hf hl]
      refine ⟨_, rfl, fun hastray => ?_⟩
      rw [Ending.isAstray_stopped, wrongArity_isAstray] at hastray
      cases hastray

/-- In the run a load left the register without a value, in the procedure that the run ended in and under the same
callers; the procedure has the name. -/
def Loses (p : Program) (symbol : Symbol) (arguments : List Value) (limit : Number) (id : Numeral) (name : String) :
    Prop :=
  ∃ m ∈ p.machines symbol arguments limit, ∃ n, (p.machines symbol arguments limit).getLast? = some n ∧
    m.MissesLoad id ∧ m.active.procedure = n.active.procedure ∧ m.callers = n.callers ∧
    n.active.procedure.symbol.text = .ok name

/-- The run never comes to a label or a function that is missing, and reads a register without a value only if a load
left it so. -/
structure KeepsCourse (p : Program) (symbol : Symbol) (arguments : List Value) (limit : Number) : Prop where
  labels : ∀ label name, p.runFunction symbol arguments limit ≠ .error (.missingLabel label name)
  functions : ∀ name, p.runFunction symbol arguments limit ≠ .error (.missingFunction name)
  registers : ∀ id name output, p.runFunction symbol arguments limit = .ok (.failed (.uninitialized id name) output) →
    p.Loses symbol arguments limit id name

/-- Before a run goes astray, a load has left the register without a value. -/
theorem Prepared.loses (hp : p.Prepared) {symbol : Symbol} {args limit f k n e} (hf : p.find? symbol = some f)
    (hl : args.length = f.parameters.length) (hle : k ≤ cyclesAllowed limit)
    (hs : Steps p k (p.startOf f args) n) (he : n.advance p = .ended e) (hastray : e.isAstray = true) :
    ∃ id name w, e = .failed (.uninitialized id name) w ∧ p.Loses symbol args limit id name := by
  have hstart : FlowsOn p (p.startOf f args) (p.startOf f args) :=
    ⟨⟨0, .refl _⟩, .start (hp.procedures f (mem_of_find? hf).1) hl _,
      fun s rest hs => absurd (suffix_nil.mp hs) (cons_ne_nil _ _)⟩
  have hflows : FlowsOn p (p.startOf f args) n := hs.invariant (fun h ha => h.step hp.procedures ha) hstart
  have hlast : (p.machines symbol args limit).getLast? = some n := by
    rw [machines_eq hf hl]
    exact getLast?_trace hs hle he
  have hn : n.active.procedure ∈ p.procedures :=
    (stacks_of_mem_machines (mem_of_getLast? hlast)).procedures _ mem_cons_self
  obtain ⟨id, name, w, rfl, htext, j, m, hj, hmisses, hproc, hcallers⟩ := hflows.uninitialized hp hn he hastray
  refine ⟨id, name, w, rfl, m, ?_, n, hlast, hmisses, hproc, hcallers, htext⟩
  -- the chain to the load is no longer than the one to the end, from which there is no step
  exact mem_machines.mpr ⟨f, j, hf, hl, (hs.le_of_ended he hj).trans hle, hj⟩

theorem Prepared.keepsCourse (hp : p.Prepared) (symbol : Symbol) (args : List Value) (limit : Number) :
    p.KeepsCourse symbol args limit := by
  obtain ⟨e, hrun, hastray⟩ := p.exists_ending symbol args limit
  have hloses (h : e.isAstray = true) :
      ∃ id name w, e = .failed (.uninitialized id name) w ∧ p.Loses symbol args limit id name := by
    obtain ⟨f, k, n, hf, hl, hle, hs, he⟩ := hastray h
    exact hp.loses hf hl hle hs he h
  refine ⟨fun label name h => ?_, fun name h => ?_, fun id name output h => ?_⟩ <;>
    rw [hrun] at h <;> cases e <;> cases h <;> obtain ⟨_, _, _, he, h⟩ := hloses rfl <;> cases he
  exact h

end Program

end Retarget
