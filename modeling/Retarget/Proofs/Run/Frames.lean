import Mathlib.Data.List.Forall2
import Retarget.Proofs.Run.Simulation

/-!
# Simulation procedure by procedure

Two programs with the same data, whose procedures correspond to each other place by place, run alike if
corresponding activations react alike. Activations know nothing of their callers, so this is a matter of
single procedures; here it is carried over to machines with stacks of them.
-/
namespace Retarget

open Machine Program

/-- The second program has the data of the first and, place by place, procedures related to its own. -/
structure Program.Corresponds (R : Procedure → Procedure → Prop) (p q : Program) : Prop where
  globals : q.globals = p.globals
  literals : q.literals = p.literals
  procedures : List.Forall₂ R p.procedures q.procedures

theorem Machine.wrongArity_congr {f g} (hsym : g.symbol = f.symbol) (hparams : g.parameters = f.parameters)
    (values : List Value) : wrongArity g values = wrongArity f values := by
  simp only [wrongArity, hsym, hparams]

variable {R : Procedure → Procedure → Prop} {p q : Program} {Good : Activation → Prop} {rank : Activation → Nat}

namespace Program.Corresponds

variable {S : Procedure → Procedure → Prop}

section
variable (h : p.Corresponds R q)
include h

theorem mono (hRS : ∀ f g, R f g → S f g) : p.Corresponds S q :=
  ⟨h.globals, h.literals, h.procedures.imp hRS⟩

theorem initialMemory : q.initialMemory = p.initialMemory := by
  simp only [Program.initialMemory, h.globals, h.literals]

/-- Under a symbol both programs find related procedures, or none. -/
theorem find?_cases (hsym : ∀ f g, R f g → g.symbol = f.symbol) (symbol : Symbol) :
    (p.find? symbol = none ∧ q.find? symbol = none) ∨
      ∃ f g, p.find? symbol = some f ∧ q.find? symbol = some g ∧ R f g := by
  unfold find?
  have hprocedures := h.procedures
  generalize p.procedures = fs, q.procedures = gs at hprocedures
  induction hprocedures with
  | nil => exact Or.inl ⟨rfl, rfl⟩
  | @cons f g _ _ hfg _ ih =>
    by_cases hs : f.symbol = symbol
    · have hs' : g.symbol = symbol := (hsym f g hfg).trans hs
      exact Or.inr ⟨f, g, by simp [hs], by simp [hs'], hfg⟩
    · have hs' : g.symbol ≠ symbol := fun h => hs ((hsym f g hfg).symm.trans h)
      simpa [hs, hs'] using ih

theorem exists_find? (hsym : ∀ f g, R f g → g.symbol = f.symbol) (hf : p.find? symbol = some f) :
    ∃ g, q.find? symbol = some g ∧ R f g := by
  rcases h.find?_cases hsym symbol with ⟨hnone, -⟩ | ⟨_, g, hf', hg, hfg⟩
  · cases hf.symm.trans hnone
  · cases hf.symm.trans hf'
    exact ⟨g, hg, hfg⟩

/-- Runs of functions that are not there, or that get a wrong number of arguments, do not start. What is to be
shown concerns those that do. -/
theorem refines (hsymbol : ∀ f g, R f g → g.symbol = f.symbol)
    (hparameters : ∀ f g, R f g → g.parameters = f.parameters) {arguments}
    (hstart : ∀ {f g}, p.find? symbol = some f → q.find? symbol = some g → R f g →
      arguments.length = f.parameters.length → arguments.length = g.parameters.length →
      p.Refines q symbol arguments) : p.Refines q symbol arguments := by
  rcases h.find?_cases hsymbol symbol with ⟨hp, hq⟩ | ⟨f, g, hf, hg, hfg⟩
  · refine .of_eq fun limit limit' => ?_
    rw [runFunction_of_none hp, runFunction_of_none hq]
  · have hl : arguments.length = g.parameters.length ↔ arguments.length = f.parameters.length := by
      rw [hparameters f g hfg]
    by_cases harity : arguments.length = f.parameters.length
    · exact hstart hf hg hfg harity (hl.mpr harity)
    · refine .of_eq fun limit limit' => ?_
      rw [runFunction_of_wrongArity hf harity, runFunction_of_wrongArity hg (mt hl.mp harity),
        wrongArity_congr (hsymbol f g hfg) (hparameters f g hfg)]
      cases wrongArity f arguments <;> rfl

end

end Program.Corresponds

/-- The worlds are the same, but for the cycles spent on them: those are no more in the second. -/
structure World.Agrees (w w' : World) : Prop where
  memory : w'.memory = w.memory
  printed : w'.printed = w.printed
  callDepth : w'.callDepth = w.callDepth
  maxCallDepth : w'.maxCallDepth = w.maxCallDepth
  cycles : w'.cycles ≤ w.cycles

namespace World.Agrees

variable {w w' : World}

theorem after (h : w.Agrees w') (memory : Memory) (units : List UInt16) :
    (w.after memory units).Agrees (w'.after memory units) where
  memory := rfl
  printed := congrArg (units.reverse ++ ·) h.printed
  callDepth := h.callDepth
  maxCallDepth := h.maxCallDepth
  cycles := Nat.succ_le_succ h.cycles

/-- A cycle that changes nothing may be left out. -/
theorem after_left (h : w.Agrees w') : (w.after w.memory []).Agrees w' where
  memory := h.memory
  printed := h.printed
  callDepth := h.callDepth
  maxCallDepth := h.maxCallDepth
  cycles := Nat.le_succ_of_le h.cycles

theorem entered (h : w.Agrees w') : w.entered.Agrees w'.entered where
  memory := h.memory
  printed := h.printed
  callDepth := congrArg (· + 1) h.callDepth
  maxCallDepth := by simp only [World.entered, h.callDepth, h.maxCallDepth]
  cycles := h.cycles

theorem left (h : w.Agrees w') : w.left.Agrees w'.left where
  memory := h.memory
  printed := h.printed
  callDepth := congrArg (· - 1) h.callDepth
  maxCallDepth := h.maxCallDepth
  cycles := h.cycles

end World.Agrees

/-- Whatever is handed back to them, and whatever memory is then, the callers go on as related
activations. -/
def Waits (Frame : Memory → Activation → Activation → Prop) (s s' : Suspended) : Prop :=
  ∀ memory value resumed, s.resume value = some resumed →
    ∃ resumed', s'.resume value = some resumed' ∧ Frame memory resumed resumed'

/-- The second activation does what the first does and stays related to it; or else the first changes
nothing but itself, and its rank gets smaller. -/
structure Mirrors (Frame : Memory → Activation → Activation → Prop) (rank : Activation → Nat)
    (memory : Memory) (a b : Activation) : Prop where
  goesOn : ∀ {next memory' units}, a.react memory = .goesOn next memory' units →
    (Frame memory' next b ∧ memory' = memory ∧ units = [] ∧ rank next < rank a) ∨
      ∃ next', b.react memory = .goesOn next' memory' units ∧ Frame memory' next next'
  calls : ∀ {symbol values caller destination},
    a.react memory = .calls symbol values caller destination →
    ∃ caller' destination', b.react memory = .calls symbol values caller' destination' ∧
      ∀ callee, Waits Frame ⟨caller, callee, destination⟩ ⟨caller', callee, destination'⟩
  returns : ∀ {value}, a.react memory = .returns value → b.react memory = .returns value
  stops : ∀ {units failure}, a.react memory = .stops units (.failure failure) → failure.IsProper →
    ∃ failure', failure.Similar failure' ∧ b.react memory = .stops units (.failure failure')

/-- Related procedures start out, and related activations go on, as related activations. -/
structure FrameSimulation (R : Procedure → Procedure → Prop) (Good : Activation → Prop)
    (Frame : Memory → Activation → Activation → Prop) (rank : Activation → Nat) : Prop where
  symbol : ∀ {f g}, R f g → g.symbol = f.symbol
  parameters : ∀ {f g}, R f g → g.parameters = f.parameters
  start : ∀ {f g}, R f g → ∀ values memory, Frame memory (f.activation values) (g.activation values)
  mirrors : ∀ {memory a b}, Good a → Frame memory a b → Mirrors Frame rank memory a b

theorem Mirrors.mono {Frame Frame' : Memory → Activation → Activation → Prop} {rank : Activation → Nat}
    (hle : ∀ {memory a b}, Frame memory a b → Frame' memory a b) (h : Mirrors Frame rank memory a b) :
    Mirrors Frame' rank memory a b where
  goesOn ha := by
    rcases h.goesOn ha with ⟨hnext, hrest⟩ | ⟨next', hb, hnext⟩
    · exact Or.inl ⟨hle hnext, hrest⟩
    · exact Or.inr ⟨next', hb, hle hnext⟩
  calls ha := by
    obtain ⟨caller', dest', hb, hwaits⟩ := h.calls ha
    refine ⟨caller', dest', hb, fun callee memory' value resumed hr => ?_⟩
    obtain ⟨resumed', hr', hnext⟩ := hwaits callee memory' value resumed hr
    exact ⟨resumed', hr', hle hnext⟩
  returns := h.returns
  stops := h.stops

/-- An activation mirrors itself. -/
theorem Mirrors.self {rank : Activation → Nat} : Mirrors (fun _ a b => b = a) rank memory a a where
  goesOn ha := Or.inr ⟨_, ha, rfl⟩
  calls ha := ⟨_, _, ha, fun _ _ _ resumed hr => ⟨resumed, hr, rfl⟩⟩
  returns ha := ha
  stops ha _ := ⟨_, .refl _, ha⟩

namespace FrameSimulation

variable {Frame : Memory → Activation → Activation → Prop}

/-- The machines agree, activation by activation. -/
structure Related (Frame : Memory → Activation → Activation → Prop) (m m' : Machine) : Prop where
  world : m.world.Agrees m'.world
  active : Frame m.world.memory m.active m'.active
  callers : List.Forall₂ (Waits Frame) m.callers m'.callers

section
variable (S : FrameSimulation R Good Frame rank)
include S

/-- Related machines move on together, or the first alone. -/
theorem step (hpq : p.Corresponds R q) {m} (hg : Good m.active)
    (hr : Related Frame m m') (h : m.advance p = .running n) :
    (Related Frame n m' ∧ rank n.active < rank m.active) ∨
      ∃ n', m'.advance q = .running n' ∧ Related Frame n n' := by
  have hmemory : ∀ {r : Reaction}, m'.active.react m.world.memory = r → m'.reaction = r := by
    intro r h
    rw [reaction, hr.world.memory, h]
  cases moves_of_running h with
  | goesOn reaction =>
    rcases (S.mirrors hg hr.active).goesOn reaction with ⟨hf, rfl, rfl, hlt⟩ | ⟨_, hb, hf⟩
    · exact Or.inl ⟨⟨hr.world.after_left, hf, hr.callers⟩, hlt⟩
    · exact Or.inr ⟨_, advance_of_goesOn (hmemory hb), hr.world.after _ _, hf, hr.callers⟩
  | @calls symbol values _ _ f reaction found arity =>
    obtain ⟨_, _, hb, hresume⟩ := (S.mirrors hg hr.active).calls reaction
    obtain ⟨g, hg', hfg⟩ := hpq.exists_find? (fun _ _ => S.symbol) found
    have harity : values.length = g.parameters.length := by rw [arity, S.parameters hfg]
    refine Or.inr ⟨_, advance_of_calls (hmemory hb) hg' harity, ?_, S.start hfg values _, ?_⟩
    · rw [hr.world.memory]
      exact (hr.world.after _ _).entered
    · refine .cons ?_ hr.callers
      rw [S.symbol hfg]
      exact hresume f.symbol
  | returns reaction callers resumed =>
    have hb := (S.mirrors hg hr.active).returns reaction
    have hcallers := hr.callers
    rw [callers] at hcallers
    cases hc : m'.callers with
    | nil =>
      rw [hc] at hcallers
      cases hcallers
    | cons =>
      rw [hc] at hcallers
      cases hcallers with
      | cons hwaits hrest =>
        obtain ⟨_, ha', hf⟩ := hwaits m.world.memory _ _ resumed
        refine Or.inr ⟨_, advance_of_returns (hmemory hb) hc ha', ?_, hf, hrest⟩
        rw [hr.world.memory]
        exact (hr.world.after _ _).left

/-- Where the first machine returns from its run, the second does so in no more cycles. -/
theorem returned {m} (hg : Good m.active) (hr : Related Frame m m') (h : m.advance p = .ended (.returned value w)) :
    ∃ w', m'.advance q = .ended (.returned value w') ∧ w.Agrees w' := by
  cases ends_of_ended h with
  | returned reaction callers =>
    have hb : m'.reaction = .returns value := by
      rw [Machine.reaction, hr.world.memory]
      exact (S.mirrors hg hr.active).returns reaction
    have hcallers := hr.callers
    rw [callers, List.forall₂_nil_left_iff] at hcallers
    refine ⟨_, advance_of_returns_nil hb hcallers, ?_⟩
    rw [hr.world.memory]
    exact (hr.world.after _ _).left

/-- Where the first machine ends its run properly, the second ends its own alike. -/
theorem stop (hpq : p.Corresponds R q) {m} (hg : Good m.active) (hm : m.IsAnswered)
    (hr : Related Frame m m') (h : m.advance p = .ended e) (hp : e.IsProper) :
    ∃ e', m'.advance q = .ended e' ∧ e.Matches e' := by
  have hmemory : ∀ {r : Reaction}, m'.active.react m.world.memory = r → m'.reaction = r := by
    intro r h
    rw [reaction, hr.world.memory, h]
  cases ends_of_ended h with
  | stops reaction printed =>
    obtain ⟨_, hs, hb⟩ := (S.mirrors hg hr.active).stops reaction hp
    obtain ⟨_, he, hw⟩ := advance_of_stops (p := q) (hmemory hb)
    refine ⟨_, he, hs, ?_⟩
    rw [hw, printed, hr.world.printed]
  | @wrongArity symbol _ _ _ f failure reaction found arity hstop =>
    obtain ⟨_, _, hb, -⟩ := (S.mirrors hg hr.active).calls reaction
    obtain ⟨g, hg', hfg⟩ := hpq.exists_find? (fun _ _ => S.symbol) found
    rw [← S.parameters hfg] at arity
    refine ⟨_, advance_of_calls_wrongArity (hmemory hb) hg' arity, ?_⟩
    rw [wrongArity_congr (S.symbol hfg) (S.parameters hfg), hstop]
    exact ⟨.refl failure, (hr.world.after m.world.memory []).printed⟩
  | returned =>
    obtain ⟨_, he, hw⟩ := S.returned (q := q) hg hr h
    exact ⟨_, he, rfl, hw.printed, Nat.le_of_eq hw.maxCallDepth⟩
  | noValue reaction callers resumed => exact absurd resumed (hm reaction callers)
  | faulted => exact hp.elim

theorem simulates (hpq : p.Corresponds R q) :
    Simulates p q (Good ·.active) (Related Frame) (rank ·.active) where
  step hg _ hr h := by
    rcases S.step hpq hg hr h with hstay | ⟨n', hn, hr'⟩
    · exact Or.inl hstay
    · exact Or.inr ⟨0, n', .single hn, hr'⟩
  stop hg hm hr h hp := by
    obtain ⟨e', he, hm⟩ := S.stop hpq hg hm hr h hp
    exact ⟨0, _, e', .refl _, he, hm⟩

/-- Programs whose procedures react alike run alike. -/
theorem refines (hpq : p.Corresponds R q) {symbol arguments}
    (hgood : ∀ {f k n}, p.find? symbol = some f → arguments.length = f.parameters.length →
      Steps p k (p.startOf f arguments) n → Good n.active ∧ n.IsAnswered) : p.Refines q symbol arguments := by
  refine hpq.refines (fun _ _ => S.symbol) (fun _ _ => S.parameters) fun {f g} hf hg hfg hl hl' => ?_
  refine .of_start (S.simulates hpq) hf hg hl hl' (hgood hf hl) (.refl _) ?_
  refine ⟨?_, S.start hfg arguments _, .nil⟩
  exact ⟨hpq.initialMemory, rfl, rfl, rfl, Nat.le_refl _⟩

end

/-- A procedure runs like itself. -/
theorem self (f : Procedure) :
    FrameSimulation (fun f' g' => f' = f ∧ g' = f) Good (fun _ a b => b = a) rank where
  symbol := by
    rintro _ _ ⟨rfl, rfl⟩
    rfl
  parameters := by
    rintro _ _ ⟨rfl, rfl⟩
    rfl
  start := by
    rintro _ _ ⟨rfl, rfl⟩ _ _
    rfl
  mirrors := by
    rintro _ a _ _ rfl
    exact Mirrors.self

/-- Simulations of single procedures make one of all. -/
theorem of_pairs {P : Procedure → Procedure → (Memory → Activation → Activation → Prop) → Prop}
    (hP : ∀ {f g Frame}, P f g Frame → FrameSimulation (fun f' g' => f' = f ∧ g' = g) Good Frame rank) :
    FrameSimulation (fun f g => ∃ Frame, P f g Frame) Good
      (fun memory a b => ∃ f g Frame, P f g Frame ∧ Frame memory a b) rank where
  symbol := by
    rintro f g ⟨_, h⟩
    exact (hP h).symbol ⟨rfl, rfl⟩
  parameters := by
    rintro f g ⟨_, h⟩
    exact (hP h).parameters ⟨rfl, rfl⟩
  start := by
    rintro f g ⟨Frame, h⟩ values memory
    exact ⟨f, g, Frame, h, (hP h).start ⟨rfl, rfl⟩ values memory⟩
  mirrors := by
    rintro _ a b hg ⟨f, g, Frame, h, hf⟩
    exact ((hP h).mirrors hg hf).mono fun hf => ⟨f, g, Frame, h, hf⟩

end FrameSimulation

/-! ## Pairs of procedures -/

/-- The procedures run alike. -/
def Procedure.Simulated (Good : Activation → Prop) (rank : Activation → Nat) (f g : Procedure) : Prop :=
  ∃ Frame, FrameSimulation (fun f' g' => f' = f ∧ g' = g) Good Frame rank

namespace Procedure.Simulated

theorem refl (f : Procedure) : f.Simulated Good rank f := ⟨_, .self f⟩

/-- Procedures that run alike, each with the one in its place, make programs that do. -/
theorem simulation : FrameSimulation (Simulated Good rank) Good
    (fun memory a b => ∃ f g Frame,
      FrameSimulation (fun f' g' => f' = f ∧ g' = g) Good Frame rank ∧ Frame memory a b) rank :=
  .of_pairs id

end Procedure.Simulated

end Retarget
