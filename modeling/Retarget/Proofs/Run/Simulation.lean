import Retarget.Proofs.Run.Reaction

/-!
# Simulation of runs

A program stands for another if it returns what the other returns, fails where the other fails and goes on
where the other goes on. Two things are left open: how many cycles that takes, and what happens once a
register is read that was never assigned, or that holds a pointer in the place of a number. A ranked
simulation between machines is enough for it: every step of the one machine is matched by steps of the other,
or else a rank gets smaller, so that the other cannot stand still for ever.
-/
namespace Retarget

open Machine

namespace Failure

/-- A failure that does not come from a register never assigned, nor from a pointer in the place of a number; and not
from the limit on cycles. -/
def IsProper : Failure → Prop
  | .exceeded _ | .uninitialized .. | .holdsPointer _ => False
  | _ => True

/-- The failures are the same but for the register that they name. -/
def Similar : Failure → Failure → Prop
  | .holdsNumber _, .holdsNumber _ => True
  | f, g => f = g

theorem Similar.refl (f : Failure) : f.Similar f := by
  cases f <;> simp [Similar]

theorem Similar.trans {f : Failure} (hfg : f.Similar g) (hgh : g.Similar h) : f.Similar h := by
  cases f <;> cases g <;> simp_all [Similar] <;> cases h <;> simp_all

theorem Similar.isProper {f : Failure} (h : f.Similar g) (hf : f.IsProper) : g.IsProper := by
  cases f <;> cases g <;> simp_all [Similar, IsProper]

end Failure

namespace Ending

/-- The run ended by itself, without a fault. -/
def IsProper : Ending → Prop
  | .returned .. => True
  | .failed failure _ => failure.IsProper
  | .faulted _ => False

/-- The second run ended as the first did, with the same output, and no deeper in calls if it returned. -/
def Matches : Ending → Ending → Prop
  | .returned value w, .returned value' w' =>
    value = value' ∧ w'.printed = w.printed ∧ w'.maxCallDepth ≤ w.maxCallDepth
  | .failed failure w, .failed failure' w' => failure.Similar failure' ∧ w'.printed = w.printed
  | _, _ => False

end Ending

/-! ## Ranked simulations -/

variable {p q : Program} {Good : Machine → Prop} {Related : Machine → Machine → Prop} {rank : Machine → Nat}

namespace Machine

/-- A caller that waits for a value is not handed none. -/
def IsAnswered (m : Machine) : Prop :=
  ∀ {value s rest}, m.reaction = .returns value → m.callers = s :: rest → s.resume value ≠ none

theorem isAnswered_of_returned {m : Machine} (h : m.advance p = .ended (.returned value w)) : m.IsAnswered := by
  cases ends_of_ended h with
  | returned _ callers =>
    intro _ _ _ _ hcallers
    cases callers.symm.trans hcallers

/-- Machines that are related stay so: every step of the first is matched by steps of the second, or the
rank of the first gets smaller; and where the first ends its run, the second ends its own alike. -/
structure Simulates (p q : Program) (Good : Machine → Prop) (Related : Machine → Machine → Prop)
    (rank : Machine → Nat) : Prop where
  step : ∀ {m m' n : Machine}, Good m → Good n → Related m m' → m.advance p = .running n →
    (Related n m' ∧ rank n < rank m) ∨ ∃ k n', Steps q (k + 1) m' n' ∧ Related n n'
  stop : ∀ {m m' : Machine} {e : Ending}, Good m → m.IsAnswered → Related m m' → m.advance p = .ended e →
    e.IsProper → ∃ k n' e', Steps q k m' n' ∧ n'.advance q = .ended e' ∧ e.Matches e'

theorem Steps.take (h : Steps p l m n) (hle : k ≤ l) : ∃ r, Steps p k m r := by
  induction h generalizing k with
  | refl =>
    obtain rfl := Nat.le_zero.mp hle
    exact ⟨_, .refl _⟩
  | head first _ ih =>
    cases k with
    | zero => exact ⟨_, .refl _⟩
    | succ =>
      obtain ⟨r, hr⟩ := ih (Nat.le_of_succ_le_succ hle)
      exact ⟨r, .head first hr⟩

/-- A machine has one chain of steps of every length. -/
theorem Steps.split (first : Steps p j m n) (h : Steps p (j + k) m r) : Steps p k n r := by
  induction first with
  | refl => rwa [Nat.zero_add] at h
  | head hn _ ih =>
    rw [Nat.add_right_comm] at h
    cases h with
    | head hn' rest =>
      rw [hn] at hn'
      cases hn'
      exact ih rest

/-- No machine comes behind one that ends the run. -/
theorem Steps.le_of_ended (h : Steps p k m n) (he : n.advance p = .ended e) (hr : Steps p j m r) : j ≤ k := by
  refine Nat.le_of_not_lt fun hlt => ?_
  obtain ⟨l, rfl⟩ : ∃ l, j = k + (l + 1) := ⟨j - k - 1, by omega⟩
  cases h.split hr with
  | head first =>
    rw [he] at first
    cases first

/-- The machine moves on for ever. -/
def Diverges (p : Program) (m : Machine) : Prop := ∀ k, ∃ n, Steps p k m n

theorem Diverges.after (h : Diverges p m) (hs : Steps p k m n) : Diverges p n := by
  intro l
  obtain ⟨r, hr⟩ := h (k + l)
  exact ⟨r, hs.split hr⟩

namespace Simulates

section
variable (hgood : ∀ {k n}, Steps p k m n → Good n) (S : Simulates p q Good Related rank)
include hgood S

/-- A run that ends is matched by one that ends alike. -/
theorem ends (hr : Related m m') (hs : Steps p k m n) (hn : n.IsAnswered) (he : n.advance p = .ended e)
    (hp : e.IsProper) : ∃ k n' e', Steps q k m' n' ∧ n'.advance q = .ended e' ∧ e.Matches e' := by
  induction hs generalizing m' with
  | refl => exact S.stop (hgood (.refl _)) hn hr he hp
  | head first _ ih =>
    have hgood' : ∀ {k n}, Steps p k _ n → Good n := fun h => hgood (.head first h)
    rcases S.step (hgood (.refl _)) (hgood' (.refl _)) hr first with ⟨hr', -⟩ | ⟨l, _, hq, hr'⟩
    · exact ih hgood' hr' hn he
    · obtain ⟨k', r, e', hq', he', hm⟩ := ih hgood' hr' hn he
      exact ⟨l + 1 + k', r, e', hq.trans hq', he', hm⟩

/-- A run that returns is matched by one that returns the same, which may have some steps ahead. -/
theorem returns (hs : Steps p k m n) (he : n.advance p = .ended (.returned value w)) (hahead : Steps q j m' n')
    (hr : Related m n') :
    ∃ enough, ∀ limit, ∀ cycles ≥ enough, ∃ cycles' depth, depth ≤ w.maxCallDepth ∧
      (m'.run q limit cycles).result = .ok (.finished value w.output cycles' depth) := by
  obtain ⟨l, r, e, hs', he', hm⟩ := S.ends hgood hr hs (isAnswered_of_returned he) he trivial
  cases e with
  | returned _ w' =>
    obtain ⟨rfl, hp, hd⟩ := hm
    refine ⟨j + l + 1, fun limit cycles hle => ⟨w'.cycles, w'.maxCallDepth, hd, ?_⟩⟩
    rw [run_of_steps_ended (hahead.trans hs') he' hle]
    simp only [Ending.result, World.output, hp]
  | failed | faulted => exact hm.elim

/-- A machine that moves on for ever is matched by steps sooner or later. -/
theorem progress (hr : Related m m') (hd : Diverges p m) :
    ∃ j n k n', Steps p j m n ∧ Steps q (k + 1) m' n' ∧ Related n n' := by
  induction hrank : rank m using Nat.strongRecOn generalizing m with
  | ind r ih =>
    obtain ⟨n₁, hn₁⟩ := hd 1
    cases hn₁ with
    | head first last =>
      cases last
      have hgood' : ∀ {k n}, Steps p k n₁ n → Good n := fun h => hgood (.head first h)
      rcases S.step (hgood (.refl _)) (hgood' (.refl _)) hr first with ⟨hr', hlt⟩ | ⟨k, n', hq, hr'⟩
      · have hd' : Diverges p n₁ := hd.after (.single first)
        obtain ⟨j, n, k, n', hj, hk, hrel⟩ := ih (rank n₁) (hrank ▸ hlt) hgood' hr' hd' rfl
        exact ⟨j + 1, n, k, n', .head first hj, hk, hrel⟩
      · exact ⟨1, n₁, k, n', .single first, hq, hr'⟩

theorem diverges (hr : Related m m') (hd : Diverges p m) : Diverges q m' := by
  intro k
  induction k generalizing m m' with
  | zero => exact ⟨m', .refl m'⟩
  | succ k ih =>
    obtain ⟨j, n, l, _, hj, hl, hrel⟩ := S.progress hgood hr hd
    obtain ⟨r, hr'⟩ := ih (fun h => hgood (hj.trans h)) hrel (hd.after hj)
    exact (hl.trans hr').take (by omega)

end

end Simulates

end Machine

/-! ## Refinement of runs -/

namespace Program

variable {memory : Memory} {symbol : Symbol} {arguments : List Value}

/-- A run of a function that the other program's run of it stands for: it returns the same value with the
same output, no deeper in calls; it fails alike; and it goes on if the other does. -/
structure Refines (p q : Program) (symbol : Symbol) (arguments : List Value) : Prop where
  returns : ∀ {limit : Number} {value : Option Value} {output : List UInt16} {cycles depth : Nat},
    p.runFunction symbol arguments limit = .ok (.finished value output cycles depth) →
    ∃ enough, ∀ limit', enough ≤ cyclesAllowed limit' → ∃ cycles' depth', depth' ≤ depth ∧
      q.runFunction symbol arguments limit' = .ok (.finished value output cycles' depth')
  fails : ∀ {limit : Number} {failure : Failure} {output : List UInt16},
    p.runFunction symbol arguments limit = .ok (.failed failure output) → failure.IsProper →
    ∃ enough, ∀ limit', enough ≤ cyclesAllowed limit' → ∃ failure', failure.Similar failure' ∧
      q.runFunction symbol arguments limit' = .ok (.failed failure' output)
  goesOn : (∀ n, ∃ output, p.runFunction symbol arguments (.ofNat n) =
      .ok (.failed (.exceeded (.ofNat n)) output)) →
    ∀ n, ∃ output, q.runFunction symbol arguments (.ofNat n) = .ok (.failed (.exceeded (.ofNat n)) output)

theorem Refines.trans {p : Program} (hpq : p.Refines q symbol args)
    (hqr : q.Refines r symbol args) : p.Refines r symbol args where
  returns h := by
    obtain ⟨enough, hq⟩ := hpq.returns h
    obtain ⟨_, _, hle, hq⟩ := hq (.ofNat enough) (Nat.le_of_eq (cyclesAllowed_ofNat enough).symm)
    obtain ⟨enough', hr⟩ := hqr.returns hq
    refine ⟨enough', fun limit' hl => ?_⟩
    obtain ⟨cycles', depth', hle', hr⟩ := hr limit' hl
    exact ⟨cycles', depth', Nat.le_trans hle' hle, hr⟩
  fails h hf := by
    obtain ⟨enough, hq⟩ := hpq.fails h hf
    obtain ⟨_, hs, hq⟩ := hq (.ofNat enough) (Nat.le_of_eq (cyclesAllowed_ofNat enough).symm)
    obtain ⟨enough', hr⟩ := hqr.fails hq (hs.isProper hf)
    refine ⟨enough', fun limit' hl => ?_⟩
    obtain ⟨failure', hs', hr⟩ := hr limit' hl
    exact ⟨failure', hs.trans hs', hr⟩
  goesOn h := hqr.goesOn (hpq.goesOn h)

/-! ## Refinement from simulation -/

/-- Runs a function of the program from any memory. -/
def runFrom (p : Program) (memory : Memory) (symbol : Symbol) (arguments : List Value) (limit : Number) :
    Checked RunResult := do
  match p.find? symbol with
  | none => return .failed (.noFunction (← symbol.text)) []
  | some f =>
    match Machine.enter f arguments ⟨memory, [], 0, 0, 0⟩ [] with
    | .ok m => (m.run p limit (cyclesAllowed limit)).result
    | .error stop => (Ending.stopped ⟨memory, [], 0, 0, 0⟩ stop).result

/-- The machine that a run of a procedure starts with. -/
def startOf (p : Program) (f : Procedure) (arguments : List Value) : Machine :=
  ⟨p.initialWorld.entered, f.activation arguments, []⟩

/-- The machine that a run of a procedure starts with in a memory. -/
def startFrom (memory : Memory) (f : Procedure) (arguments : List Value) : Machine :=
  ⟨World.entered ⟨memory, [], 0, 0, 0⟩, f.activation arguments, []⟩

theorem machines_eq (hf : p.find? symbol = some f) (hl : args.length = f.parameters.length) :
    p.machines symbol args limit = (p.startOf f args).trace p (cyclesAllowed limit) := by
  simp only [machines, start?, hf, enter_eq hl]
  rfl

/-- The machines of a run are those that a chain of steps leads to from the one that it starts with. -/
theorem mem_machines : m ∈ p.machines symbol args limit ↔ ∃ f k, p.find? symbol = some f ∧
    args.length = f.parameters.length ∧ k ≤ cyclesAllowed limit ∧ Steps p k (p.startOf f args) m := by
  constructor
  · intro h
    cases hf : p.find? symbol with
    | none => simp [machines, start?, hf] at h
    | some f =>
      by_cases hl : args.length = f.parameters.length
      · rw [machines_eq hf hl] at h
        obtain ⟨k, hk, hsteps⟩ := steps_of_mem_trace h
        exact ⟨f, k, rfl, hl, hk, hsteps⟩
      · simp [machines, start?, hf, enter_ne hl] at h
  · rintro ⟨f, k, hf, hl, hk, hsteps⟩
    rw [machines_eq hf hl]
    exact mem_trace_of_steps hsteps hk

section
variable (hf : p.find? symbol = some f)
include hf

theorem runFrom_of_some (hl : args.length = f.parameters.length) :
    p.runFrom memory symbol args limit =
      ((startFrom memory f args).run p limit (cyclesAllowed limit)).result := by
  unfold runFrom
  simp only [hf, enter_eq hl]
  rfl

theorem runFunction_of_some (hl : args.length = f.parameters.length) :
    p.runFunction symbol args limit =
      ((p.startOf f args).run p limit (cyclesAllowed limit)).result :=
  runFrom_of_some hf hl

theorem runFrom_of_wrongArity (hl : args.length ≠ f.parameters.length) :
    p.runFrom memory symbol args limit =
      (Ending.stopped ⟨memory, [], 0, 0, 0⟩ (Machine.wrongArity f args)).result := by
  unfold runFrom
  simp only [hf, enter_ne hl]

theorem runFunction_of_wrongArity (hl : args.length ≠ f.parameters.length) :
    p.runFunction symbol args limit =
      (Ending.stopped p.initialWorld (Machine.wrongArity f args)).result :=
  runFrom_of_wrongArity hf hl

end

theorem runFunction_of_none (hf : p.find? symbol = none) :
    p.runFunction symbol args limit = do return .failed (.noFunction (← symbol.text)) [] := by
  unfold runFunction
  simp only [hf]

/-- A run that returns comes, within its cycles, to a machine that returns. -/
theorem returned_of_runFrom (h : p.runFrom memory symbol args limit = .ok (.finished value output cycles depth)) :
    ∃ f k n w, p.find? symbol = some f ∧ args.length = f.parameters.length ∧ k < cyclesAllowed limit ∧
      Steps p k (startFrom memory f args) n ∧ n.advance p = .ended (.returned value w) ∧
      w.output = output ∧ w.cycles = cycles ∧ w.maxCallDepth = depth := by
  cases hf : p.find? symbol with
  | none =>
    simp only [runFrom, hf] at h
    cases ht : symbol.text <;> rw [ht] at h <;> cases h
  | some f =>
    by_cases hl : args.length = f.parameters.length
    · rw [runFrom_of_some hf hl] at h
      rcases run_cases p limit (cyclesAllowed limit) (startFrom memory f args) with
        ⟨k, n, e, hk, hs, he, hrun⟩ | ⟨n, -, hrun⟩
      · have hrun := hrun limit _ (Nat.le_refl _)
        rw [hrun] at h
        cases e with
        | failed | faulted => cases h
        | returned v w =>
          cases h
          refine ⟨f, k, n, w, rfl, hl, Nat.lt_of_le_of_ne hk ?_, hs, he, rfl, rfl, rfl⟩
          -- with no cycle left, the return would not be executed
          rintro rfl
          have hlast : (startFrom memory f args).run p limit (cyclesAllowed limit + 0) = n.run p limit 0 :=
            run_of_steps hs
          cases hi : n.next? with
          | none =>
            rw [advance_of_past hi, past] at he
            split at he <;> cases he
          | some =>
            rw [Nat.add_zero, hrun, run_zero hi] at hlast
            cases hlast
      · rw [hrun] at h
        cases h
    · rw [runFrom_of_wrongArity hf hl] at h
      cases hstop : wrongArity f args <;> rw [hstop] at h <;> cases h

theorem returned_of_finished (h : p.runFunction symbol args limit = .ok (.finished value output cycles depth)) :
    ∃ f k n w, p.find? symbol = some f ∧ args.length = f.parameters.length ∧ k < cyclesAllowed limit ∧
      Steps p k (p.startOf f args) n ∧ n.advance p = .ended (.returned value w) ∧
      w.output = output ∧ w.cycles = cycles ∧ w.maxCallDepth = depth :=
  returned_of_runFrom h

/-- A run that returns within a limit returns the same within greater ones. -/
theorem runFunction_of_finished (h : p.runFunction symbol args limit = .ok (.finished value output cycles depth))
    (hle : cyclesAllowed limit < cyclesAllowed limit') :
    p.runFunction symbol args limit' = .ok (.finished value output cycles depth) := by
  obtain ⟨f, k, n, w, hf, hl, hk, hs, he, rfl, rfl, rfl⟩ := returned_of_finished h
  rw [runFunction_of_some hf hl, run_of_steps_ended hs he (Nat.lt_trans hk hle)]
  rfl

theorem Refines.finished_eq (h : p.Refines q symbol args)
    (hp : p.runFunction symbol args limit = .ok (.finished value output cycles depth))
    (hq : q.runFunction symbol args limit' = .ok (.finished value' output' cycles' depth')) :
    value' = value ∧ output' = output := by
  obtain ⟨enough, hreturns⟩ := h.returns hp
  have hallowed := cyclesAllowed_ofNat (max enough (cyclesAllowed limit' + 1))
  obtain ⟨_, _, -, hq'⟩ := hreturns (.ofNat (max enough (cyclesAllowed limit' + 1))) (by omega)
  rw [runFunction_of_finished hq (by omega)] at hq'
  injection hq' with hq'
  injection hq' with hvalue houtput
  exact ⟨hvalue, houtput⟩

/-- A program that does not get to start its run refines one that does not either. -/
theorem Refines.of_eq (h : ∀ limit limit', q.runFunction symbol args limit' =
    p.runFunction symbol args limit) : p.Refines q symbol args where
  returns hp := ⟨0, fun limit' _ => ⟨_, _, Nat.le_refl _, (h _ limit').trans hp⟩⟩
  fails hp _ := ⟨0, fun limit' _ => ⟨_, .refl _, (h _ limit').trans hp⟩⟩
  goesOn hp n := by
    obtain ⟨output, hn⟩ := hp n
    exact ⟨output, (h _ _).trans hn⟩

variable {f g : Procedure} {k : Nat} {n : Machine}

/-- A run that did not end within some cycles, whatever their number, goes on for ever. -/
theorem diverges_of_exceeded (hf : p.find? symbol = some f) (hl : args.length = f.parameters.length)
    (h : ∀ n, ∃ output, p.runFunction symbol args (.ofNat n) =
      .ok (.failed (.exceeded (.ofNat n)) output)) : Diverges p (p.startOf f args) := by
  intro n
  obtain ⟨_, hn⟩ := h n
  rw [runFunction_of_some hf hl, cyclesAllowed_ofNat] at hn
  rcases run_cases p (.ofNat n) n (p.startOf f args) with ⟨k, r, e, -, -, -, hr⟩ | ⟨r, hs, -⟩
  · -- an ending of its own would not change with the limit, but the message does
    obtain ⟨_, hn'⟩ := h (n + 1)
    rw [runFunction_of_some hf hl, cyclesAllowed_ofNat, hr _ _ (Nat.le_succ n)] at hn'
    rw [hr _ _ (Nat.le_refl n), hn'] at hn
    injection hn with hn
    injection hn with hn
    injection hn with hn
    injection hn with hn
    omega
  · exact ⟨r, hs⟩

theorem exceeded_of_diverges (hf : p.find? symbol = some f) (hl : args.length = f.parameters.length)
    (h : Diverges p (p.startOf f args)) (n : Nat) :
    ∃ output, p.runFunction symbol args (.ofNat n) = .ok (.failed (.exceeded (.ofNat n)) output) := by
  obtain ⟨r, hr⟩ := h n
  obtain ⟨_, hr'⟩ := h (n + 1)
  cases hr.split hr' with
  | head first =>
    obtain ⟨i, hi, -⟩ := next_of_running first
    rw [runFunction_of_some hf hl, cyclesAllowed_ofNat]
    have hrun : (p.startOf f args).run p (.ofNat n) (n + 0) = r.run p (.ofNat n) 0 := run_of_steps hr
    rw [Nat.add_zero] at hrun
    rw [hrun, run_zero hi]
    exact ⟨_, rfl⟩

/-- A run that starts with related machines is refined. The second program may have some steps ahead. -/
theorem Refines.of_start (S : Simulates p q Good Related rank) (hf : p.find? symbol = some f)
    (hg : q.find? symbol = some g) (hlf : args.length = f.parameters.length) (hlg : args.length = g.parameters.length)
    (hgood : ∀ {k n}, Steps p k (p.startOf f args) n → Good n ∧ n.IsAnswered)
    (hahead : Steps q k (q.startOf g args) n) (hr : Related (p.startOf f args) n) :
    p.Refines q symbol args where
  returns h := by
    obtain ⟨_, j, r, w, hf', -, -, hs, he, rfl, rfl, rfl⟩ := returned_of_finished h
    cases hf.symm.trans hf'
    obtain ⟨enough, hreturns⟩ := S.returns (hgood · |>.1) hs he hahead hr
    exact ⟨enough, fun limit' hle => runFunction_of_some hg hlg ▸ hreturns limit' _ hle⟩
  fails {limit failure output} h hproper := by
    rw [runFunction_of_some hf hlf] at h
    rcases run_cases p limit (cyclesAllowed limit) (p.startOf f args) with
      ⟨j, r, e, -, hs, he, hrun⟩ | ⟨r, -, hrun⟩
    · rw [hrun limit _ (Nat.le_refl _)] at h
      cases e with
      | returned | faulted => cases h
      | failed =>
        cases h
        obtain ⟨l, _, e', hs', he', hm⟩ := S.ends (hgood · |>.1) hr hs (hgood hs).2 he hproper
        cases e' with
        | returned | faulted => exact hm.elim
        | failed failure' =>
          refine ⟨k + l + 1, fun limit' hle => ⟨failure', hm.1, ?_⟩⟩
          rw [runFunction_of_some hg hlg, run_of_steps_ended (hahead.trans hs') he' hle]
          simp only [Ending.result, World.output, hm.2]
    · rw [hrun] at h
      cases h
      exact hproper.elim
  goesOn h := by
    have hd := S.diverges (hgood · |>.1) hr (diverges_of_exceeded hf hlf h)
    refine exceeded_of_diverges hg hlg fun l => ?_
    obtain ⟨r, hs⟩ := hd l
    exact (hahead.trans hs).take (Nat.le_add_left l k)

end Program

end Retarget
