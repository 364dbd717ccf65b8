import Retarget.Run.Machine

/-!
# Runs as chains of steps

A run is a chain of single steps: the machine moves on from cycle to cycle until a step ends the run or the
cycles are used up. Here the run, which counts cycles down, is taken apart into that chain, so that what one
step keeps can be shown of a whole run.
-/
namespace Retarget

open List

namespace Machine

variable {p : Program} {m m' : Machine}

/-- How a run ends at a machine that has no instruction left. -/
def past (m : Machine) : Ending :=
  match m.active.procedure.symbol.text with
  | .ok symbol => .failed (.ranPast symbol) m.world
  | .error fault => .faulted fault

/-- What the next cycle leads to. -/
def advance (p : Program) (m : Machine) : Progress :=
  match m.next? with
  | none => .ended m.past
  | some instruction => m.tick.execute p instruction.operation

theorem advance_of_next (h : m.next? = some i) : m.advance p = m.tick.execute p i.operation := by
  simp only [advance, h]

theorem advance_of_past (h : m.next? = none) : m.advance p = .ended m.past := by
  simp only [advance, h]

/-- A machine that moves on has an instruction to execute. -/
theorem next_of_running (h : m.advance p = .running m') :
    ∃ i, m.next? = some i ∧ m.tick.execute p i.operation = .running m' := by
  unfold advance at h
  split at h
  · cases h
  · rename_i i hi
    exact ⟨i, hi, h⟩

/-- A chain of steps of the given length. -/
inductive Steps (p : Program) : Nat → Machine → Machine → Prop
  | refl (m : Machine) : Steps p 0 m m
  | head {k : Nat} {m n r : Machine} (first : m.advance p = .running n) (rest : Steps p k n r) :
      Steps p (k + 1) m r

namespace Steps

theorem single (h : m.advance p = .running m') : Steps p 1 m m' := .head h (.refl m')

theorem trans (first : Steps p k m n) (second : Steps p l n r) : Steps p (k + l) m r := by
  induction first with
  | refl => rwa [Nat.zero_add]
  | head h _ ih =>
    rw [Nat.add_right_comm]
    exact .head h (ih second)

theorem tail (first : Steps p k m n) (last : n.advance p = .running r) : Steps p (k + 1) m r :=
  first.trans (single last)

/-- A property that every step keeps holds along a chain. -/
theorem invariant {Inv : Machine → Prop} (step : ∀ {m n}, Inv m → m.advance p = .running n → Inv n) {k m n}
    (h : Steps p k m n) (hm : Inv m) : Inv n := by
  induction h with
  | refl => exact hm
  | head first _ ih => exact ih (step hm first)

end Steps

/-! ## Runs -/

theorem run_past (h : m.next? = none) : m.run p limit cycles = m.past := by
  unfold run past
  cases m.active.procedure.symbol.text <;> simp only [h]

theorem run_zero (h : m.next? = some i) : m.run p limit 0 = .failed (.exceeded limit) m.overrun := by
  unfold run
  simp only [h]

theorem run_succ_of_running (h : m.advance p = .running m') : m.run p limit (cycles + 1) = m'.run p limit cycles := by
  obtain ⟨i, hi, he⟩ := next_of_running h
  conv => lhs; unfold run
  simp only [hi, he]

theorem run_succ_of_ended (h : m.advance p = .ended e) : m.run p limit (cycles + 1) = e := by
  unfold advance at h
  split at h
  · rename_i hi
    cases h
    exact run_past hi
  · rename_i i hi
    unfold run
    simp only [hi, h]

theorem run_of_steps (h : Steps p k m m') : m.run p limit (k + cycles) = m'.run p limit cycles := by
  induction h with
  | refl => rw [Nat.zero_add]
  | head first _ ih =>
    rw [Nat.add_right_comm, run_succ_of_running first]
    exact ih

/-- A run that comes to a machine which ends it ends so, whatever cycles are left. -/
theorem run_of_steps_ended (h : Steps p k m m') (he : m'.advance p = .ended e) (hle : k < cycles) :
    m.run p limit cycles = e := by
  obtain ⟨rest, rfl⟩ : ∃ rest, cycles = k + (rest + 1) := ⟨cycles - k - 1, by omega⟩
  rw [run_of_steps h]
  exact run_succ_of_ended he

/-- A run comes to a machine that ends it, under higher limits too, or uses up its cycles. -/
theorem run_cases (p : Program) (limit : Number) (cycles : Nat) (m : Machine) :
    (∃ k n e, k ≤ cycles ∧ Steps p k m n ∧ n.advance p = .ended e ∧
      ∀ limit' cycles', cycles ≤ cycles' → m.run p limit' cycles' = e) ∨
      ∃ n, Steps p cycles m n ∧ m.run p limit cycles = .failed (.exceeded limit) n.overrun := by
  induction cycles generalizing m with
  | zero =>
    cases hi : m.next? with
    | none => exact Or.inl ⟨0, m, m.past, Nat.le_refl 0, .refl m, advance_of_past hi, fun _ _ _ => run_past hi⟩
    | some => exact Or.inr ⟨m, .refl m, run_zero hi⟩
  | succ _ ih =>
    cases ha : m.advance p with
    | ended e =>
      exact Or.inl ⟨0, m, e, Nat.zero_le _, .refl m, ha, fun _ _ hle => run_of_steps_ended (.refl m) ha (by omega)⟩
    | running m' =>
      rw [run_succ_of_running ha]
      rcases ih m' with ⟨k, n, e, hle, hs, he, hr⟩ | ⟨n, hs, hr⟩
      · refine Or.inl ⟨k + 1, n, e, by omega, .head ha hs, he, fun limit' cycles' hle' => ?_⟩
        obtain ⟨l, rfl⟩ : ∃ l, cycles' = l + 1 := ⟨cycles' - 1, by omega⟩
        rw [run_succ_of_running ha, hr limit' l (by omega)]
      · exact Or.inr ⟨n, .head ha hs, hr⟩

/-! ## The machines of a run -/

/-- The machines that a run goes through, the one it starts with first. -/
def trace (p : Program) : Nat → Machine → List Machine
  | 0, m => [m]
  | cycles + 1, m =>
    match m.advance p with
    | .running m' => m :: m'.trace p cycles
    | .ended _ => [m]

/-- The machines of a run are those that a chain of steps leads to. -/
theorem steps_of_mem_trace (h : n ∈ m.trace p cycles) : ∃ k, k ≤ cycles ∧ Steps p k m n := by
  induction cycles generalizing m with
  | zero =>
    rw [trace, mem_singleton] at h
    subst h
    exact ⟨0, Nat.le_refl 0, .refl n⟩
  | succ _ ih =>
    rw [trace] at h
    split at h
    · rename_i m' ha
      rcases mem_cons.mp h with rfl | h
      · exact ⟨0, Nat.zero_le _, .refl _⟩
      · obtain ⟨k, hle, hs⟩ := ih h
        exact ⟨k + 1, by omega, .head ha hs⟩
    · rw [mem_singleton] at h
      subst h
      exact ⟨0, Nat.zero_le _, .refl n⟩

theorem mem_trace_of_steps (h : Steps p k m n) (hle : k ≤ cycles) : n ∈ m.trace p cycles := by
  induction h generalizing cycles with
  | refl =>
    unfold trace
    split
    · exact mem_singleton.mpr rfl
    · split <;> exact mem_cons_self
  | head first _ ih =>
    obtain ⟨cycles, rfl⟩ : ∃ l, cycles = l + 1 := ⟨cycles - 1, by omega⟩
    simp only [trace, first]
    exact mem_cons_of_mem _ (ih (by omega))

/-- A machine that ends the run is the last one. -/
theorem getLast?_trace (h : Steps p k m n) (hle : k ≤ cycles) (he : n.advance p = .ended e) :
    (m.trace p cycles).getLast? = some n := by
  induction h generalizing cycles with
  | refl =>
    cases cycles with
    | zero => rfl
    | succ =>
      simp only [trace, he]
      rfl
  | head first _ ih =>
    obtain ⟨cycles, rfl⟩ : ∃ l, cycles = l + 1 := ⟨cycles - 1, by omega⟩
    simp only [trace, first]
    rw [getLast?_cons, ih (by omega) he]
    rfl

end Machine

/-! ## Starting a run -/

namespace Program

variable {p : Program} {symbol : Symbol} {arguments : List Value} {f : Procedure}

/-- The machine that a run of a function starts with, if there is one. -/
def start? (p : Program) (symbol : Symbol) (arguments : List Value) : Option Machine :=
  match p.find? symbol with
  | none => none
  | some f =>
    match Machine.enter f arguments p.initialWorld [] with
    | .ok m => some m
    | .error _ => none

/-- The machines that a run of a function goes through under a limit on its cycles. -/
def machines (p : Program) (symbol : Symbol) (arguments : List Value) (limit : Number) : List Machine :=
  match p.start? symbol arguments with
  | some m => m.trace p (cyclesAllowed limit)
  | none => []

end Program

theorem cyclesAllowed_ofNat (n : Nat) : cyclesAllowed (.ofNat n) = n := by
  show ((n : Int).tdiv (1 : Nat)).toNat = n
  rw [Int.ofNat_one, Int.tdiv_one, Int.toNat_natCast]

end Retarget
