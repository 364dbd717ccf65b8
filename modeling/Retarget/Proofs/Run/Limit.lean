import Retarget.Proofs.Number.Bytes
import Retarget.Proofs.Run.Simulation
import Retarget.Proofs.Run.Stretch

/-!
# The limit on cycles

A limit does nothing but cut a run off, as `Program.runFunction_cutOff` says. The run under a higher limit goes through
the same machines, so it gives the same result if the lower limit was enough, and goes on printing where the lower one
was not. That every run ends holds of limits below `2 ^ 53` only. There the counter stands still, and a run that goes
on for ever is not cut off.
-/
namespace Retarget

open List Machine Number

/-! ## Counting -/

/-- What a run has counted after so many cycles: every cycle adds one and rounds. -/
def cycleCounter : Nat → Number
  | 0 => 0
  | cycles + 1 => (cycleCounter cycles).add 1

theorem cycleCounter_eq (cycles : Nat) : cycleCounter cycles = .ofNat (min cycles (twoTo 53)) := by
  induction cycles with
  | zero => rfl
  | succ cycles ih =>
    rw [cycleCounter, ih]
    rcases Nat.lt_or_ge cycles (twoTo 53) with hlt | hge
    · rw [Nat.min_eq_left (Nat.le_of_lt hlt), Nat.min_eq_left hlt]
      exact add_ofNat hlt
    · rw [Nat.min_eq_right hge, Nat.min_eq_right (Nat.le_succ_of_le hge)]
      decide +kernel

namespace Number

/-- What is above the greater number is above the smaller one. -/
theorem lt_ofNat_of_le {x y : Number} (hle : x.le y = true) (h : y.lt (.ofNat n) = true) : x.lt (.ofNat n) = true := by
  match x, y with
  | .dyadic a k, .dyadic b l =>
    have hscaled : a * twoTo (max k l - k) ≤ b * twoTo (max k l - l) := by
      rcases Bool.or_eq_true_iff.mp hle with hlt | heq
      · exact Int.le_of_lt (of_decide_eq_true hlt)
      · cases eq_of_beq heq
        rfl
    have hb : b < n * twoTo l := by simpa [lt, ofNat, twoTo] using h
    have hpowers : twoTo l * twoTo (max k l - l) = twoTo k * twoTo (max k l - k) := by
      rw [← twoTo_add, ← twoTo_add, Nat.add_sub_cancel' (Nat.le_max_right k l),
        Nat.add_sub_cancel' (Nat.le_max_left k l)]
    have hpos : (0 : Int) < twoTo (max k l - l) := by exact_mod_cast twoTo_pos _
    have ha : a * twoTo (max k l - k) < n * twoTo k * twoTo (max k l - k) :=
      calc a * twoTo (max k l - k) ≤ b * twoTo (max k l - l) := hscaled
        _ < n * twoTo l * twoTo (max k l - l) := Int.mul_lt_mul_of_pos_right hb hpos
        _ = n * twoTo k * twoTo (max k l - k) := by
          rw [Int.mul_assoc, Int.mul_assoc]
          exact congrArg (fun x : Int => n * x) (by exact_mod_cast hpowers)
    have ha : a < n * twoTo k := Int.lt_of_mul_lt_mul_right ha (Int.natCast_nonneg _)
    simpa [lt, ofNat, twoTo] using ha
  | .infinite true, _ => rfl

/-- A limit is exceeded by the first cycle that is not allowed. -/
theorem lt_ofNat_succ_iff (limit : Number) (h : n < twoTo 53) :
    limit.lt (.ofNat (n + 1)) = true ↔ cyclesAllowed limit ≤ n := by
  match limit with
  | .dyadic a k =>
    have hcount : cyclesAllowed (.dyadic a k) = a.toNat / twoTo k := by
      show (a.tdiv (twoTo k)).toNat = _
      cases a with
      | ofNat => rfl
      | negSucc => exact (Int.toNat_neg_natCast _).trans (Nat.zero_div _).symm
    have hpos := twoTo_pos k
    rw [hcount, ← Nat.lt_succ_iff, Nat.div_lt_iff_lt_mul hpos,
      Int.toNat_lt_of_ne_zero (Nat.mul_pos n.succ_pos hpos).ne']
    simp [lt, ofNat, twoTo]
  | .infinite true => exact iff_of_true rfl (Nat.zero_le n)
  | .infinite false | .nan =>
    refine iff_of_false Bool.false_ne_true (Nat.not_le.mpr (Nat.lt_trans h ?_))
    decide +kernel

end Number

def RunResult.output : RunResult → List UInt16
  | .finished _ output _ _ | .failed _ output => output

namespace Machine

/-! ## Runs that compare the counter with the limit -/

/-- The run ends so. There is no bound on its cycles but the limit, which the counter is compared with ahead of every
instruction. -/
inductive RunsTo (p : Program) (limit : Number) : Machine → Ending → Prop
  | past {m : Machine} (next : m.next? = none) : RunsTo p limit m m.past
  | cut {m : Machine} (next : m.next? = some i) (beyond : limit.lt (cycleCounter (m.world.cycles + 1)) = true) :
      RunsTo p limit m (.failed (.exceeded limit) m.overrun)
  | ended {m : Machine} (within : limit.lt (cycleCounter (m.world.cycles + 1)) = false)
      (last : m.advance p = .ended e) : RunsTo p limit m e
  | goesOn {m n : Machine} (within : limit.lt (cycleCounter (m.world.cycles + 1)) = false)
      (first : m.advance p = .running n) (rest : RunsTo p limit n e) : RunsTo p limit m e

variable {p : Program} {m n : Machine} {e : Ending} {result : RunResult} {limit limit' : Number}

/-- A run that may go on goes on with the next machine. -/
theorem RunsTo.rest (h : m.RunsTo p limit e) (hwithin : limit.lt (cycleCounter (m.world.cycles + 1)) = false)
    (hfirst : m.advance p = .running n) : n.RunsTo p limit e := by
  cases h with
  | past next => cases (advance_of_past next).symm.trans hfirst
  | cut _ beyond => cases beyond.symm.trans hwithin
  | ended _ last => cases last.symm.trans hfirst
  | goesOn _ first rest =>
    cases first.symm.trans hfirst
    exact rest

/-- A run ends in one way only. -/
theorem RunsTo.unique (h : m.RunsTo p limit e) (h' : m.RunsTo p limit e') : e' = e := by
  induction h with
  | past next =>
    cases h' with
    | past => rfl
    | cut next' => cases next'.symm.trans next
    | ended _ last => exact Progress.ended.inj (last.symm.trans (advance_of_past next))
    | goesOn _ first => cases first.symm.trans (advance_of_past next)
  | cut next beyond =>
    cases h' with
    | past next' => cases next'.symm.trans next
    | cut => rfl
    | ended within | goesOn within => cases within.symm.trans beyond
  | ended within last =>
    cases h' with
    | past next => exact Progress.ended.inj ((advance_of_past next).symm.trans last)
    | cut _ beyond => cases beyond.symm.trans within
    | ended _ last' => exact Progress.ended.inj (last'.symm.trans last)
    | goesOn _ first => cases first.symm.trans last
  | goesOn within first _ ih => exact ih (h'.rest within first)

/-- With as many cycles as the limit allows, a run ends as it does where the counter is compared. -/
theorem runsTo_run (hlimit : cyclesAllowed limit < twoTo 53) (h : m.world.cycles + cycles = cyclesAllowed limit) :
    m.RunsTo p limit (m.run p limit cycles) := by
  have hover : limit.lt (cycleCounter (m.world.cycles + 1)) = true ↔ cyclesAllowed limit ≤ m.world.cycles := by
    rw [cycleCounter_eq, Nat.min_eq_left (by omega), lt_ofNat_succ_iff limit (by omega)]
  induction cycles generalizing m with
  | zero =>
    cases hi : m.next? with
    | none => exact run_past hi ▸ .past hi
    | some => exact run_zero hi ▸ .cut hi (hover.mpr (by omega))
  | succ cycles ih =>
    have hwithin := Bool.eq_false_iff.mpr (mt hover.mp (by omega))
    cases ha : m.advance p with
    | ended => exact run_succ_of_ended ha ▸ .ended hwithin ha
    | running n =>
      have hcycles : n.world.cycles = m.world.cycles + 1 := (Steps.single ha).cycles
      rw [run_succ_of_running ha]
      refine .goesOn hwithin ha (ih (by omega) ?_)
      rw [cycleCounter_eq, Nat.min_eq_left (by omega), lt_ofNat_succ_iff limit (by omega)]

/-! ## Output -/

theorem output_of_running (h : m.advance p = .running n) : m.world.output <+: n.world.output := by
  cases moves_of_running h with
  | goesOn => simp [World.after, World.output]
  | calls | returns => exact prefix_rfl

theorem output_of_ended (h : m.advance p = .ended e) (hr : e.result = .ok result) :
    m.world.output <+: result.output := by
  cases ends_of_ended h with
  | stops _ printed =>
    cases hr
    simp [RunResult.output, World.output, printed]
  | wrongArity | returned | noValue =>
    cases hr
    exact prefix_rfl
  | faulted => cases hr

/-- A run prints behind what was printed before it. -/
theorem RunsTo.output (h : m.RunsTo p limit e) (hr : e.result = .ok result) : m.world.output <+: result.output := by
  induction h with
  | past next => exact output_of_ended (advance_of_past (p := p) next) hr
  | cut =>
    cases hr
    exact prefix_rfl
  | ended _ last => exact output_of_ended last hr
  | goesOn _ first _ ih => exact (output_of_running first).trans (ih hr)

/-! ## Higher limits -/

/-- A run under a higher limit ends the same, unless the lower one cut it off; then it prints more. -/
theorem RunsTo.higher (h : m.RunsTo p limit e) (hle : limit.le limit' = true) :
    m.RunsTo p limit' e ∨ ∃ w : World, e = .failed (.exceeded limit) w ∧
      ∀ e' result, m.RunsTo p limit' e' → e'.result = .ok result → w.output <+: result.output := by
  have hraise : ∀ {cycles}, limit.lt (cycleCounter cycles) = false → limit'.lt (cycleCounter cycles) = false := by
    intro cycles hwithin
    rw [← Bool.not_eq_true] at hwithin ⊢
    rw [cycleCounter_eq] at hwithin ⊢
    exact mt (lt_ofNat_of_le hle) hwithin
  induction h with
  | past next => exact Or.inl (.past next)
  | cut => exact Or.inr ⟨_, rfl, fun _ _ hruns hr => hruns.output hr⟩
  | ended within last => exact Or.inl (.ended (hraise within) last)
  | goesOn within first _ ih =>
    rcases ih with hruns | ⟨w, hw, hprints⟩
    · exact Or.inl (.goesOn (hraise within) first hruns)
    · exact Or.inr ⟨w, hw, fun e' result hruns hr => hprints e' result (hruns.rest (hraise within) first) hr⟩

end Machine

namespace Program

variable {p : Program} {symbol : Symbol} {arguments : List Value} {limit : Number}

/-- The run of a function ends with the result, the counter compared with the limit. What cannot start ends at once. -/
def EndsWith (p : Program) (symbol : Symbol) (arguments : List Value) (limit : Number) (result : Checked RunResult) :
    Prop :=
  match p.start? symbol arguments with
  | some m => ∃ e, m.RunsTo p limit e ∧ result = e.result
  | none => result = p.runFunction symbol arguments limit

/-- A run that starts does so with no cycle counted. One that does not start gives the same under every limit. -/
theorem start?_cases (p : Program) (symbol : Symbol) (arguments : List Value) :
    (∃ m : Machine, p.start? symbol arguments = some m ∧ m.world.cycles = 0 ∧
      ∀ limit, p.runFunction symbol arguments limit = (m.run p limit (cyclesAllowed limit)).result) ∨
    p.start? symbol arguments = none ∧
      ∀ limit limit', p.runFunction symbol arguments limit' = p.runFunction symbol arguments limit := by
  cases hf : p.find? symbol with
  | none =>
    refine Or.inr ⟨by simp [start?, hf], fun _ _ => ?_⟩
    rw [runFunction_of_none hf, runFunction_of_none hf]
  | some f =>
    by_cases hl : arguments.length = f.parameters.length
    · have hstart : p.start? symbol arguments = some (p.startOf f arguments) := by
        simp only [start?, hf, enter_eq hl]
        rfl
      exact Or.inl ⟨_, hstart, rfl, fun _ => runFunction_of_some hf hl⟩
    · refine Or.inr ⟨by simp [start?, hf, enter_ne hl], fun _ _ => ?_⟩
      rw [runFunction_of_wrongArity hf hl, runFunction_of_wrongArity hf hl]

/-- A run that returns counts the cycles up to the return. -/
theorem cycles_of_finished (h : p.runFunction symbol arguments limit = .ok (.finished value output cycles depth)) :
    ∃ k, cycles = k + 1 ∧ k < cyclesAllowed limit := by
  obtain ⟨f, k, n, w, -, -, hk, hsteps, hended, -, rfl, -⟩ := returned_of_finished h
  have hcycles : n.world.cycles = 0 + k := hsteps.cycles
  cases ends_of_ended hended with
  | returned => exact ⟨n.world.cycles, rfl, by omega⟩

theorem endsWith_iff (hstart : p.start? symbol arguments = some m) (h : m.RunsTo p limit e)
    {result : Checked RunResult} :
    p.EndsWith symbol arguments limit result ↔ result = e.result := by
  simp only [EndsWith, hstart]
  refine ⟨?_, fun hresult => ⟨e, h, hresult⟩⟩
  rintro ⟨e', h', rfl⟩
  rw [h.unique h']

/-- A limit only cuts runs off. Under one below `2 ^ 53` every run ends, and in one way; if it returns, it counts no
more cycles than the limit. Under every higher limit it ends in the same way, unless it was the lower limit that ended
it; then it has printed a part of what it prints under the higher one. -/
theorem runFunction_cutOff (p : Program) (symbol : Symbol) (arguments : List Value) {limit limit' : Number}
    (hlimit : limit.lt (.ofNat (twoTo 53)) = true) (hle : limit.le limit' = true) :
    (∀ result, p.EndsWith symbol arguments limit result ↔ result = p.runFunction symbol arguments limit) ∧
    (∀ value output cycles depth, p.runFunction symbol arguments limit = .ok (.finished value output cycles depth) →
      limit.lt (.ofNat cycles) = false) ∧
    ((∀ result, p.EndsWith symbol arguments limit' result ↔ result = p.runFunction symbol arguments limit) ∨
      ∃ output, p.runFunction symbol arguments limit = .ok (.failed (.exceeded limit) output) ∧
        ∀ result, p.EndsWith symbol arguments limit' (.ok result) → output <+: result.output) := by
  have hallowed : cyclesAllowed limit ≤ twoTo 53 - 1 := (lt_ofNat_succ_iff limit (by decide +kernel)).mp hlimit
  have hpos := twoTo_pos 53
  have hcycles : ∀ value output cycles depth,
      p.runFunction symbol arguments limit = .ok (.finished value output cycles depth) →
        limit.lt (.ofNat cycles) = false := by
    intro value output cycles depth h
    obtain ⟨k, rfl, hk⟩ := cycles_of_finished h
    rw [← Bool.not_eq_true, lt_ofNat_succ_iff limit (by omega)]
    omega
  rcases start?_cases p symbol arguments with ⟨m, hstart, hzero, hrun⟩ | ⟨hstart, hsame⟩
  · have hruns : m.RunsTo p limit (m.run p limit (cyclesAllowed limit)) := runsTo_run (by omega) (by omega)
    refine ⟨fun result => by rw [hrun, endsWith_iff hstart hruns], hcycles, ?_⟩
    rcases hruns.higher hle with hhigher | ⟨w, hcut, hprints⟩
    · exact Or.inl fun result => by rw [hrun, endsWith_iff hstart hhigher]
    · refine Or.inr ⟨w.output, by rw [hrun, hcut]; rfl, fun result hresult => ?_⟩
      simp only [EndsWith, hstart] at hresult
      obtain ⟨e, he, hresult⟩ := hresult
      exact hprints e result he hresult.symm
  · simp only [EndsWith, hstart, hsame limit, implies_true, true_or, and_true, true_and]
    exact hcycles

/-- Prints and returns. -/
def beeps : Procedure :=
  ⟨⟨"M", "f", []⟩, [], .void, [], [⟨1, .u8⟩],
    [⟨.loadImmediate 7 ⟨1, .u8⟩, ""⟩, ⟨.call (.routine .printChar) [⟨1, .u8⟩] none, ""⟩, ⟨.ret none, ""⟩],
    false, false, .standard⟩

/-- Three cycles are enough, so more make no difference. -/
theorem beeps_cutOff :
    let p : Program := ⟨"M", [beeps], [], []⟩
    lt 3 (.ofNat (twoTo 53)) = true ∧ le 3 (.infinite false) = true ∧
      p.runFunction beeps.symbol [] 3 = .ok (.finished none [7] 3 1) ∧
      ∀ result, p.EndsWith beeps.symbol [] (.infinite false) result ↔ result = .ok (.finished none [7] 3 1) := by
  intro p
  have hlimit : lt 3 (.ofNat (twoTo 53)) = true := by decide +kernel
  have hrun : p.runFunction beeps.symbol [] 3 = .ok (.finished none [7] 3 1) := by decide +kernel
  have hle : le 3 (.infinite false) = true := rfl
  refine ⟨hlimit, hle, hrun, ?_⟩
  rcases (runFunction_cutOff p beeps.symbol [] hlimit hle).2.2 with hsame | ⟨_, hcut, -⟩
  · exact hrun ▸ hsame
  · cases hcut.symm.trans hrun

/-- Goes round for ever. -/
def spins : Procedure :=
  ⟨⟨"M", "f", []⟩, [], .void, [], [], [⟨.label "again", ""⟩, ⟨.goto "again", ""⟩], false, false, .standard⟩

/-- The counter never comes past `2 ^ 53`, so this limit does not end the run, and nothing else does. -/
theorem spins_gives_nothing :
    ¬ ∃ result, Program.EndsWith ⟨"M", [spins], [], []⟩ spins.symbol [] (.ofNat (twoTo 53)) result := by
  have hmoves : ∀ m : Machine, m.active.procedure = spins → m.active.position ≤ 1 →
      ∃ n, m.advance ⟨"M", [spins], [], []⟩ = .running n ∧ n.active.procedure = spins ∧ n.active.position ≤ 1 := by
    rintro ⟨w, ⟨_, position, registers⟩, callers⟩ rfl hposition
    match position, hposition with
    | 0, _ => exact ⟨_, rfl, rfl, Nat.le_refl 1⟩
    | 1, _ => exact ⟨_, rfl, rfl, Nat.zero_le 1⟩
  have hendless : ∀ {m : Machine} {e}, m.RunsTo ⟨"M", [spins], [], []⟩ (.ofNat (twoTo 53)) e →
      m.active.procedure = spins → m.active.position ≤ 1 → False := by
    intro m e h hprocedure hposition
    induction h with
    | cut _ beyond =>
      rw [cycleCounter_eq] at beyond
      simp [lt, ofNat, twoTo] at beyond
    | past next =>
      obtain ⟨n, hn, -⟩ := hmoves _ hprocedure hposition
      cases (advance_of_past next).symm.trans hn
    | ended _ last =>
      obtain ⟨n, hn, -⟩ := hmoves _ hprocedure hposition
      cases last.symm.trans hn
    | goesOn _ first _ ih =>
      obtain ⟨n, hn, hprocedure', hposition'⟩ := hmoves _ hprocedure hposition
      cases first.symm.trans hn
      exact ih hprocedure' hposition'
  rintro ⟨_, e, he, -⟩
  exact hendless he rfl (Nat.zero_le 1)

end Program

end Retarget
