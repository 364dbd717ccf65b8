import Retarget.Proofs.Run.Execution

/-!
# What executing an instruction depends on

Executing an instruction takes one cycle, or many if it calls a function: the call is over when the caller goes on. All
of it depends on the registers that the instruction reads and on no others, and changes no registers but those that it
writes. What a called function does is the same whoever waits for it (`executeNext_reads_writes`).
-/
namespace Retarget

open Activation Machine

/-! ## Executing an instruction to its end -/

/-- Runs until no more procedures wait than the given number, or to the end. The cycles left are given as well. -/
def Progress.settled (p : Program) (limit : Number) (depth : Nat) : Nat → Progress → Nat × Progress
  | cycles, .ended e => (cycles, .ended e)
  | 0, .running m => (0, if m.callers.length ≤ depth then .running m else .ended (m.run p limit 0))
  | cycles + 1, .running m =>
    if m.callers.length ≤ depth then (cycles + 1, .running m) else settled p limit depth cycles (m.advance p)

/-- Executes the next instruction, with all that is called by it. -/
def Machine.executeNext (p : Program) (limit : Number) (m : Machine) : Nat → Nat × Progress
  | 0 => (0, .ended (m.run p limit 0))
  | cycles + 1 => (m.advance p).settled p limit m.callers.length cycles

/-- How a run goes to its end. -/
def Progress.ending (p : Program) (limit : Number) (cycles : Nat) : Progress → Ending
  | .running m => m.run p limit cycles
  | .ended e => e

namespace Progress

variable {p : Program} {limit : Number} {depth : Nat}

theorem settled_ended (e : Ending) : settled p limit depth cycles (.ended e) = (cycles, .ended e) := by
  rw [settled]

theorem settled_back {m} (h : m.callers.length ≤ depth) :
    settled p limit depth cycles (.running m) = (cycles, .running m) := by
  cases cycles <;> rw [settled, if_pos h]

theorem ending_advance (p : Program) (limit : Number) (cycles : Nat) (m : Machine) :
    (m.advance p).ending p limit cycles = m.run p limit (cycles + 1) := by
  cases h : m.advance p with
  | running n => exact (run_succ_of_running h).symm
  | ended e => exact (run_succ_of_ended h).symm

theorem ending_settled (x : Progress) :
    (x.settled p limit depth cycles).2.ending p limit (x.settled p limit depth cycles).1 = x.ending p limit cycles := by
  fun_induction settled with
  | case1 => rfl
  | case2 => split <;> rfl
  | case3 => rfl
  | case4 cycles m _ ih => exact ih.trans (ending_advance p limit cycles m)

end Progress

/-- A run executes its instructions one after the other. -/
theorem Machine.run_eq_executeNext (p : Program) (limit : Number) (cycles : Nat) (m : Machine) :
    m.run p limit cycles =
      (m.executeNext p limit cycles).2.ending p limit (m.executeNext p limit cycles).1 := by
  cases cycles with
  | zero => rfl
  | succ cycles => exact ((Progress.ending_settled _).trans (Progress.ending_advance p limit cycles m)).symm

/-! ## Whoever waits -/

/-- Two machines go on alike, though one procedure waits differently in them: they end, or it still waits, or it is
handed a value. -/
inductive Progress.Swapped (s s' : Suspended) (callers : List Suspended) : Progress → Progress → Prop
  | ended (e : Ending) : Swapped s s' callers (.ended e) (.ended e)
  | waits (w : World) (b : Activation) (front : List Suspended) :
      Swapped s s' callers (.running ⟨w, b, front ++ s :: callers⟩) (.running ⟨w, b, front ++ s' :: callers⟩)
  | resumes {w : World} {value : Option Value} {b b' : Activation} (first : s.resume value = some b)
      (second : s'.resume value = some b') :
      Swapped s s' callers (.running ⟨w, b, callers⟩) (.running ⟨w, b', callers⟩)

section swapped
variable {p : Program} {a a' : Activation} {callee : Symbol} {destination : Option Register} {callers : List Suspended}

/-- Whether a call is entered, and how it ends the run if it is not, is not a matter of who waits for it. -/
theorem Machine.follow_calls (p : Program) (w : World) (symbol : Symbol) (values : List Value) :
    (∃ e, ∀ b caller destination callers,
        follow p ⟨w, b, callers⟩ (.calls symbol values caller destination) = .ended e) ∨
      ∃ f w' c, ∀ b caller destination callers,
        follow p ⟨w, b, callers⟩ (.calls symbol values caller destination) =
          .running ⟨w', c, ⟨caller, f, destination⟩ :: callers⟩ := by
  simp only [follow]
  cases p.find? symbol with
  | none => cases symbol.text <;> exact Or.inl ⟨_, fun _ _ _ _ => rfl⟩
  | some f =>
    by_cases hl : values.length = f.parameters.length
    · simp only [enter_eq hl]
      exact Or.inr ⟨f.symbol, _, _, fun _ _ _ _ => rfl⟩
    · simp only [enter_ne hl]
      exact Or.inl ⟨_, fun _ _ _ _ => rfl⟩

theorem Machine.advance_swapped (p : Program) (w : World) (b : Activation) (front : List Suspended) :
    Progress.Swapped ⟨a, callee, destination⟩ ⟨a', callee, destination⟩ callers
      (advance p ⟨w, b, front ++ ⟨a, callee, destination⟩ :: callers⟩)
      (advance p ⟨w, b, front ++ ⟨a', callee, destination⟩ :: callers⟩) := by
  cases hn : b.next? with
  | none =>
    have hnext (callers : List Suspended) : next? ⟨w, b, callers⟩ = none := hn
    rw [advance_of_past (hnext _), advance_of_past (hnext _)]
    exact .ended (past ⟨w, b, []⟩)
  | some i =>
    have hnext (callers : List Suspended) : next? ⟨w, b, callers⟩ = some i := hn
    rw [advance_of_next_reaction (hnext _), advance_of_next_reaction (hnext _)]
    simp only [reaction]
    cases b.react w.memory with
    | goesOn next => exact .waits _ next front
    | stops => exact .ended _
    | calls symbol values caller dest =>
      rcases follow_calls p w symbol values with ⟨e, hfollow⟩ | ⟨f, w', c, hfollow⟩
      · simpa only [hfollow] using .ended e
      · simpa only [hfollow] using .waits w' c (⟨caller, f, dest⟩ :: front)
    | returns value =>
      -- a value that is wanted and missing is an end; it is the same for both
      cases front with
      | nil =>
        simp only [follow, List.nil_append, leave]
        rcases destination with _ | r
        · exact @Progress.Swapped.resumes _ _ _ _ value _ _ rfl rfl
        · rcases value with _ | v
          · cases callee.text <;> exact .ended _
          · exact @Progress.Swapped.resumes _ _ _ _ (some v) _ _ rfl rfl
      | cons s front =>
        simp only [follow, List.cons_append, leave]
        rcases s.destination with _ | r
        · exact .waits _ _ front
        · rcases value with _ | v
          · cases s.callee.text <;> exact .ended _
          · exact .waits _ _ front

theorem Machine.run_zero_swapped (p : Program) (limit : Number) (w : World) (b : Activation)
    (callers callers' : List Suspended) : run p limit 0 ⟨w, b, callers⟩ = run p limit 0 ⟨w, b, callers'⟩ := by
  cases hn : b.next? with
  | none => exact (run_past (m := ⟨w, b, callers⟩) hn).trans (run_past (m := ⟨w, b, callers'⟩) hn).symm
  | some => exact (run_zero (m := ⟨w, b, callers⟩) hn).trans (run_zero (m := ⟨w, b, callers'⟩) hn).symm

/-- When the call is over, both have come to the same end, or both have the same value handed back. -/
theorem Progress.settled_swapped (limit : Number) (cycles : Nat) {x x' : Progress}
    (h : Swapped ⟨a, callee, destination⟩ ⟨a', callee, destination⟩ callers x x') :
    ∃ left, (∃ e, x.settled p limit callers.length cycles = (left, .ended e) ∧
        x'.settled p limit callers.length cycles = (left, .ended e)) ∨
      ∃ w value b b', Suspended.resume ⟨a, callee, destination⟩ value = some b ∧
        Suspended.resume ⟨a', callee, destination⟩ value = some b' ∧
        x.settled p limit callers.length cycles = (left, .running ⟨w, b, callers⟩) ∧
        x'.settled p limit callers.length cycles = (left, .running ⟨w, b', callers⟩) := by
  have hdeeper (front : List Suspended) (s : Suspended) : ¬(front ++ s :: callers).length ≤ callers.length := by
    simp
    omega
  induction cycles generalizing x x' with
  | zero =>
    cases h with
    | ended e => exact ⟨0, Or.inl ⟨e, settled_ended e, settled_ended e⟩⟩
    | waits w b front =>
      refine ⟨0, Or.inl ⟨_, by rw [settled, if_neg (hdeeper _ _)], ?_⟩⟩
      rw [settled, if_neg (hdeeper _ _), run_zero_swapped]
    | resumes first second =>
      exact ⟨0, Or.inr ⟨_, _, _, _, first, second, settled_back Nat.le.refl, settled_back Nat.le.refl⟩⟩
  | succ cycles ih =>
    cases h with
    | ended e => exact ⟨_, Or.inl ⟨e, settled_ended e, settled_ended e⟩⟩
    | waits w b front =>
      rw [settled, if_neg (hdeeper _ _), settled, if_neg (hdeeper _ _)]
      exact ih (advance_swapped p w b front)
    | resumes first second =>
      exact ⟨_, Or.inr ⟨_, _, _, _, first, second, settled_back Nat.le.refl, settled_back Nat.le.refl⟩⟩

end swapped

/-! ## Registers -/

namespace Operation

/-- Support routines give no value, even where a destination is named. -/
def callsRoutine : Operation → Bool
  | .call (.routine _) _ _ => true
  | _ => false

/-- What becomes of two activations by an instruction: they go on at one place, agree on what it writes, and keep the
rest. -/
structure Carries (op : Operation) (a a' b b' : Activation) : Prop where
  procedures : b.procedure = a.procedure ∧ b'.procedure = a.procedure
  position : b'.position = b.position
  written : op.callsRoutine = false → ∀ r ∈ op.writes, b'.registers.get? r.id = b.registers.get? r.id
  kept : ∀ id, op.callsRoutine = true ∨ (∀ r ∈ op.writes, r.id ≠ id) →
    b.registers.get? id = a.registers.get? id ∧ b'.registers.get? id = a'.registers.get? id

/-- The write is all that the operation lists, support routines apart. -/
inductive IsWrite (op : Operation) : Option (Register × Option Value) → Prop
  | routine (isRoutine : op.callsRoutine = true) : IsWrite op none
  | nothing (writes : op.writes = []) : IsWrite op none
  | register {r : Register} (v : Option Value) (notRoutine : op.callsRoutine = false) (writes : op.writes = [r]) :
      IsWrite op (some (r, v))

theorem Does.isWrite {get} (h : Does get memory op e) : op.IsWrite e.write := by
  cases h with
  | label | goto | gotoIfFalse | store => exact .nothing rfl
  | routine => exact .routine rfl
  | _ => exact .register _ rfl rfl

variable {op : Operation} {a a' : Activation}

theorem IsWrite.carries (h : op.IsWrite w) (hprocedure : a'.procedure = a.procedure) (position : Nat) :
    op.Carries a a' { a.tick.written w with position } { a'.tick.written w with position } where
  procedures := ⟨a.tick.written_procedure w, (a'.tick.written_procedure w).trans hprocedure⟩
  position := rfl
  written := by
    intro hroutine r hr
    cases h with
    | routine isRoutine => exact absurd isRoutine (by simp [hroutine])
    | nothing writes => simp [writes] at hr
    | register v _ writes =>
      rw [writes, List.mem_singleton] at hr
      subst hr
      simp only [get?_written, if_true]
  kept := by
    intro id hid
    cases h with
    | routine | nothing => exact ⟨rfl, rfl⟩
    | @register r v notRoutine writes =>
      have hne : r.id ≠ id := (hid.resolve_left (by simp [notRoutine])) r (by simp [writes])
      simp only [get?_written, if_neg hne]
      exact ⟨rfl, rfl⟩

/-- A caller that is handed a value goes on behind the call. -/
theorem carries_resume (hprocedure : a'.procedure = a.procedure) (hposition : a'.position = a.position)
    (h : Suspended.resume ⟨a.tick, callee, destination⟩ value = some b)
    (h' : Suspended.resume ⟨a'.tick, callee, destination⟩ value = some b') :
    (call (.function symbol) arguments destination).Carries a a' b b' := by
  have htick : a'.tick = { a'.tick with position := a.position + 1 } := by rw [Activation.tick, hposition]
  rw [htick] at h'
  generalize hop : call (.function symbol) arguments destination = op
  rcases destination with _ | r
  · cases h
    cases h'
    have hwrite : op.IsWrite none := .nothing (by rw [← hop]; rfl)
    exact hwrite.carries hprocedure (a.position + 1)
  · rcases value with _ | v
    · cases h
    · cases h
      cases h'
      have hwrite : op.IsWrite (some (r, some v)) := .register _ (by rw [← hop]; rfl) (by rw [← hop]; rfl)
      exact hwrite.carries hprocedure (a.position + 1)

end Operation

/-! ## Reads and writes -/

/-- Where a jump leads is a matter of the procedure. -/
theorem Activation.moved_alike (a a' : Activation) (hprocedure : a'.procedure = a.procedure)
    (hposition : a'.position = a.position) (target : Option String) :
    (∃ position, a.moved target = .ok { a with position } ∧ a'.moved target = .ok { a' with position }) ∨
      ∃ stop, a.moved target = .error stop ∧ a'.moved target = .error stop := by
  cases target with
  | none => exact Or.inl ⟨a.position, rfl, by rw [← hposition]; rfl⟩
  | some name =>
    simp only [moved, jump, hprocedure]
    cases a.procedure.instructions.findIdx? (·.operation.labels name) with
    | some position => exact Or.inl ⟨position, rfl, rfl⟩
    | none => cases a.procedure.symbol.text <;> exact Or.inr ⟨_, rfl, rfl⟩

namespace Machine

/-- An activation that returns does not go on. -/
theorem settled_of_returns {m : Machine} (hr : m.reaction = .returns value) (left : Nat) (world : World)
    (b : Activation) :
    (m.advance p).settled p limit m.callers.length cycles ≠ (left, .running ⟨world, b, m.callers⟩) := by
  cases hadvance : m.advance p with
  | ended =>
    rw [Progress.settled_ended]
    simp
  | running =>
    cases moves_of_running hadvance with
    | returns _ hcallers =>
      rw [Progress.settled_back (by simp [hcallers])]
      simp [hcallers]
    | goesOn reaction => cases hr.symm.trans reaction
    | calls reaction => cases hr.symm.trans reaction

/-- Executing an instruction, with all that it calls, depends on the registers that it reads and on no others. Let two
activations of a procedure be at it, in the same world and with the same callers, and agree on what it reads. Then both
go on, with the same cycles left, in the same world and at the same place: there they agree on the registers that the
instruction writes, and each keeps all its others. Or neither goes on, and what comes of both is the same. A support
routine gives no value, so that a destination named in a call of one keeps its value too. -/
theorem executeNext_reads_writes (p : Program) (limit : Number) (cycles : Nat) (w : World) {a a' : Activation}
    (callers : List Suspended) {i : Instruction} (hnext : a.next? = some i)
    (hprocedure : a'.procedure = a.procedure) (hposition : a'.position = a.position)
    (hreads : ∀ r ∈ i.reads, a'.registers.get? r.id = a.registers.get? r.id) :
    (∃ left world b b', executeNext p limit ⟨w, a, callers⟩ cycles = (left, .running ⟨world, b, callers⟩) ∧
        executeNext p limit ⟨w, a', callers⟩ cycles = (left, .running ⟨world, b', callers⟩) ∧
        i.operation.Carries a a' b b') ∨
      executeNext p limit ⟨w, a', callers⟩ cycles = executeNext p limit ⟨w, a, callers⟩ cycles ∧
        ∀ left world b, executeNext p limit ⟨w, a, callers⟩ cycles ≠ (left, .running ⟨world, b, callers⟩) := by
  have hnext' : a'.next? = some i := by rw [← hnext, Activation.next?, Activation.next?, hprocedure, hposition]
  have hget : ∀ r ∈ i.operation.reads, a'.get r = a.get r := by
    intro r hr
    rw [Activation.get, Activation.get, hreads r hr, hprocedure]
  have hreact : a.react w.memory = a.tick.follow (i.operation.outcome a.get w.memory) := Activation.react_eq hnext
  have hreact' : a'.react w.memory = a'.tick.follow (i.operation.outcome a.get w.memory) := by
    rw [Activation.react_eq hnext', Operation.outcome_congr hget]
  cases cycles with
  | zero =>
    refine Or.inr ⟨?_, by simp [executeNext]⟩
    rw [executeNext, executeNext, run_zero (m := ⟨w, a, callers⟩) hnext, run_zero (m := ⟨w, a', callers⟩) hnext']
    rfl
  | succ cycles =>
    have hadvance := advance_of_next_reaction (p := p) (m := ⟨w, a, callers⟩) hnext
    have hadvance' := advance_of_next_reaction (p := p) (m := ⟨w, a', callers⟩) hnext'
    simp only [reaction, hreact] at hadvance
    simp only [reaction, hreact'] at hadvance'
    simp only [executeNext]
    cases ho : i.operation.outcome a.get w.memory with
    | goesOn e =>
      have hwrite := (Operation.does_of_outcome ho).isWrite
      simp only [ho, Activation.follow] at hadvance hadvance'
      rcases Activation.moved_alike (a.tick.written e.write) (a'.tick.written e.write)
        (by rwa [Activation.written_procedure, Activation.written_procedure])
        (by simp [Activation.tick, hposition]) e.target with ⟨position, hm, hm'⟩ | ⟨stop, hm, hm'⟩
      · rw [hadvance, hadvance', hm, hm']
        exact Or.inl ⟨cycles, _, _, _, Progress.settled_back Nat.le.refl, Progress.settled_back Nat.le.refl,
          hwrite.carries hprocedure position⟩
      · rw [hadvance, hadvance', hm, hm']
        simp [follow, Progress.settled_ended]
    | calls symbol values destination =>
      obtain ⟨_, hop, -⟩ := Operation.calls_of_outcome ho
      have hswapped : ∃ callee, Progress.Swapped ⟨a.tick, callee, destination⟩ ⟨a'.tick, callee, destination⟩ callers
          (advance p ⟨w, a, callers⟩) (advance p ⟨w, a', callers⟩) := by
        rw [hadvance, hadvance', ho, Activation.follow, Activation.follow]
        rcases follow_calls p w symbol values with ⟨e, hfollow⟩ | ⟨f, w', c, hfollow⟩ <;> rw [hfollow, hfollow]
        · exact ⟨symbol, .ended e⟩
        · exact ⟨f, .waits w' c []⟩
      obtain ⟨_, hswapped⟩ := hswapped
      obtain ⟨left, ⟨e, hx, hx'⟩ | ⟨world, _, b, b', hb, hb', hx, hx'⟩⟩ :=
        Progress.settled_swapped (p := p) limit cycles hswapped
      · exact Or.inr ⟨hx'.trans hx.symm, by simp [hx]⟩
      · exact Or.inl ⟨left, world, b, b', hx, hx', hop ▸ Operation.carries_resume hprocedure hposition hb hb'⟩
    | returns =>
      rw [ho] at hadvance hadvance' hreact
      have hsame : advance p ⟨w, a', callers⟩ = advance p ⟨w, a, callers⟩ := hadvance'.trans hadvance.symm
      exact Or.inr ⟨by rw [hsame], settled_of_returns (m := ⟨w, a, callers⟩) hreact⟩
    | stops =>
      rw [hadvance, hadvance', ho]
      simp [Activation.follow, follow, Progress.settled_ended]

/-- Adds its argument to itself. -/
def doubles : Procedure :=
  ⟨⟨"M", "g", []⟩, [⟨"x", ⟨1, .u8⟩⟩], .u8, [], [⟨1, .u8⟩],
    [⟨.binary .add ⟨1, .u8⟩ ⟨1, .u8⟩ ⟨1, .u8⟩, ""⟩, ⟨.ret (some ⟨1, .u8⟩), ""⟩], false, false, .standard⟩

/-- Has its argument doubled. -/
def asks : Procedure :=
  ⟨⟨"M", "f", []⟩, [⟨"x", ⟨1, .u8⟩⟩], .u8, [], [⟨1, .u8⟩, ⟨2, .u8⟩],
    [⟨.call (.function doubles.symbol) [⟨1, .u8⟩] (some ⟨2, .u8⟩), ""⟩, ⟨.ret (some ⟨2, .u8⟩), ""⟩],
    false, false, .standard⟩

/-- The call takes three cycles and gives the double, whatever was in its destination. -/
theorem asks_reads_writes :
    let p : Program := ⟨"M", [asks, doubles], [], []⟩
    let a : Activation := ⟨asks, 0, [(1, .number 3)]⟩
    let a' : Activation := ⟨asks, 0, [(1, .number 3), (2, .number 9)]⟩
    ∃ world b b', executeNext p 9 ⟨p.initialWorld, a, []⟩ 9 = (6, .running ⟨world, b, []⟩) ∧
      executeNext p 9 ⟨p.initialWorld, a', []⟩ 9 = (6, .running ⟨world, b', []⟩) ∧
      b.registers.get? 2 = some (.number 6) ∧ b'.registers.get? 2 = b.registers.get? 2 := by
  intro p a a'
  have hx : executeNext p 9 ⟨p.initialWorld, a, []⟩ 9 =
      (6, .running ⟨⟨p.initialMemory, [], 3, 0, 1⟩, ⟨asks, 1, [(1, .number 3), (2, .number 6)]⟩, []⟩) := by rfl
  rcases @executeNext_reads_writes p 9 9 p.initialWorld a a' [] _ rfl rfl rfl (by decide) with
    ⟨left, world, b, b', h, h', hcarries⟩ | ⟨-, hne⟩
  · cases h.symm.trans hx
    exact ⟨_, _, b', hx, h', rfl, hcarries.written rfl ⟨2, .u8⟩ (by decide)⟩
  · exact absurd hx (hne _ _ _)

/-- Prints a line's end and names a destination for what it gives. -/
def breaksLine : Procedure :=
  ⟨⟨"M", "f", []⟩, [⟨"x", ⟨1, .u8⟩⟩], .u8, [], [⟨1, .u8⟩],
    [⟨.call (.routine .printNewline) [] (some ⟨1, .u8⟩), ""⟩, ⟨.ret (some ⟨1, .u8⟩), ""⟩], false, false, .standard⟩

/-- A call of a support routine reads nothing here and lists its destination among its writes. Still the activations
differ there afterwards. -/
theorem breaksLine_keeps_destination :
    let p : Program := ⟨"M", [breaksLine], [], []⟩
    let a : Activation := ⟨breaksLine, 0, [(1, .number 5)]⟩
    let a' : Activation := ⟨breaksLine, 0, [(1, .number 6)]⟩
    ∃ i, a.next? = some i ∧ i.reads = [] ∧ ⟨1, .u8⟩ ∈ i.writes ∧ ∃ left world b b',
      executeNext p 9 ⟨p.initialWorld, a, []⟩ 9 = (left, .running ⟨world, b, []⟩) ∧
      executeNext p 9 ⟨p.initialWorld, a', []⟩ 9 = (left, .running ⟨world, b', []⟩) ∧
      b'.registers.get? 1 ≠ b.registers.get? 1 :=
  ⟨_, rfl, rfl, List.mem_singleton.mpr rfl, _, _, _, _, rfl, rfl, by decide⟩

end Machine

end Retarget
