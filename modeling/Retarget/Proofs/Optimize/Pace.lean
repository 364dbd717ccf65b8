import Retarget.Proofs.Optimize.Peephole

/-!
# Simplified programs keep the pace

A step of simplification takes cycles away and adds none, as long as registers for numbers hold numbers of their
types. This is asked of the run of the program as it was: what a register holds in the run of the simplified one,
some register of its type holds in the run before. So the steps may be taken one after the other, and what returns
within a limit still does so (`peephole_keepsPace`).
-/
namespace Retarget

open Activation List Machine Operation Procedure

/-! ## Registers in their ranges -/

/-- A type of numbers has only those of its range as values. -/
def Ty.Admits (type : Ty) (v : Value) : Prop :=
  type.IsNumber → ∃ n, v = .number (.dyadic n 0) ∧ type.Holds n

/-- The registers that the procedure mentions hold values of their types. -/
def Activation.InRange (a : Activation) : Prop :=
  ∀ r ∈ a.procedure.mentioned, ∀ v, a.registers.get? r.id = some v → r.type.Admits v

/-- The values that a step gives to registers. -/
inductive Machine.Binds (p : Program) (m : Machine) : Register → Value → Prop
  | writes {i : Instruction} {e : Effect} {r : Register} {v : Value} (next : m.active.next? = some i)
      (outcome : i.operation.outcome m.active.get m.world.memory = .goesOn e) (write : e.write = some (r, some v)) :
      Binds p m r v
  | passes {symbol : Symbol} {values : List Value} {caller : Activation} {destination : Option Register}
      {f : Procedure} {parameter : Parameter} {v : Value}
      (reaction : m.reaction = .calls symbol values caller destination) (found : p.find? symbol = some f)
      (bound : (parameter, v) ∈ f.parameters.zip values) : Binds p m parameter.register v
  | returns {v : Value} {s : Suspended} {rest : List Suspended} {r : Register}
      (reaction : m.reaction = .returns (some v)) (callers : m.callers = s :: rest)
      (destination : s.destination = some r) : Binds p m r v

/-- In a run parameters and registers get values of their types only. -/
structure Program.KeepsRanges (p : Program) (symbol : Symbol) (arguments : List Value) (limit : Number) : Prop where
  given : ∀ f, p.find? symbol = some f → ∀ parameter v, (parameter, v) ∈ f.parameters.zip arguments →
    parameter.register.type.Admits v
  steps : ∀ m ∈ p.machines symbol arguments limit, ∀ r v, m.Binds p r v → r.type.Admits v

/-- Labels, types and operands are as simplification asks, and parameters have the types of the registers that
they are. -/
structure Procedure.Uniform (f : Procedure) : Prop extends f.Tidy where
  parameters : ∀ q ∈ f.parameters, ∀ r ∈ f.mentioned, q.register.id = r.id → q.register.type = r.type

namespace Activation.InRange

variable {a : Activation} {f : Procedure}

theorem written (h : a.InRange) (hf : a.procedure.Uniform) (hr : r ∈ a.procedure.mentioned)
    (hv : ∀ w, v = some w → r.type.Admits w) : (a.written (some (r, v))).InRange := by
  intro s hs w hw
  rw [written_procedure] at hs
  rw [get?_written] at hw
  by_cases hid : r.id = s.id
  · rw [if_pos hid] at hw
    rw [← hf.types r hr s hs hid]
    exact hv w hw
  · rw [if_neg hid] at hw
    exact h s hs w hw

theorem start (hf : f.Uniform) (h : ∀ param v, (param, v) ∈ f.parameters.zip values → param.register.type.Admits v) :
    (f.activation values).InRange := by
  intro r hr v hv
  have hmem := Assoc.mem_of_get?_ofPairs hv
  rw [parameterIds, zip_map_left] at hmem
  obtain ⟨⟨param, w⟩, hbound, heq⟩ := mem_map.mp hmem
  obtain ⟨hid, rfl⟩ := Prod.mk.inj heq
  rw [← hf.parameters param (of_mem_zip hbound).1 r hr hid]
  exact h param _ hbound

end Activation.InRange

namespace Machine

variable {p : Program} {m n : Machine}

/-- In all activations registers hold values of their types, and will after a return. -/
structure InRange (p : Program) (m : Machine) : Prop where
  active : m.active.procedure ∈ p.procedures ∧ m.active.InRange
  callers : ∀ s ∈ m.callers, s.activation.procedure ∈ p.procedures ∧ s.activation.InRange ∧
    ∀ r, s.destination = some r → r ∈ s.activation.procedure.mentioned

theorem InRange.step (hp : ∀ f ∈ p.procedures, f.Uniform) (hbinds : ∀ r v, m.Binds p r v → r.type.Admits v)
    (hm : m.InRange p) (h : m.advance p = .running n) : n.InRange p := by
  obtain ⟨hactive, hrange⟩ := hm.active
  cases moves_of_running h with
  | goesOn reaction =>
    obtain ⟨i, e, _, hi, hd, -, -, -, rfl⟩ := goesOn_of_react reaction
    refine ⟨⟨(written_procedure _ _).symm ▸ hactive, ?_⟩, hm.callers⟩
    show (m.active.written e.write).InRange
    cases hw : e.write with
    | none => exact hrange
    | some =>
      refine hrange.written (hp _ hactive) ?_ fun v hv => hbinds _ _ (.writes hi hd.outcome_eq (hv ▸ hw))
      exact mem_mentioned (mem_of_getElem? hi) (mem_append_right _ (hd.mem_writes hw))
  | @calls _ _ _ dest f reaction found =>
    have hf := mem_of_find?_eq_some found
    obtain ⟨i, _, hi, hop, -, rfl⟩ := calls_of_react reaction
    refine ⟨⟨hf, .start (hp f hf) fun q v hq => hbinds _ _ (.passes reaction found hq)⟩, fun s hs => ?_⟩
    rcases mem_cons.mp hs with rfl | hs
    · refine ⟨hactive, hrange, fun r hr => mem_mentioned (mem_of_getElem? hi) ?_⟩
      obtain rfl : dest = some r := hr
      rw [hop]
      exact mem_append_right _ (mem_singleton.mpr rfl)
    · exact hm.callers s hs
  | @returns _ s _ a reaction callers resumed =>
    have hcallers := hm.callers
    rw [callers] at hcallers
    obtain ⟨hs, hsrange, hdest⟩ := hcallers s (.head _)
    refine ⟨?_, fun s' hs' => hcallers s' (.tail _ hs')⟩
    rcases Suspended.resume_cases resumed with ⟨-, rfl⟩ | ⟨r, v, hr, rfl, rfl⟩
    · exact ⟨hs, hsrange⟩
    · refine ⟨hs, hsrange.written (v := some v) (hp _ hs) (hdest r hr) fun w hw => ?_⟩
      cases hw
      exact hbinds _ _ (.returns reaction callers hr)

theorem InRange.steps (hp : ∀ f ∈ p.procedures, f.Uniform) (hs : Steps p k m n)
    (hbinds : ∀ j ≤ k, ∀ r, Steps p j m r → ∀ x v, r.Binds p x v → x.type.Admits v) (hm : m.InRange p) :
    n.InRange p := by
  induction hs with
  | refl => exact hm
  | @head k m m₁ n first _ ih =>
    refine ih (fun j hj r hr => hbinds (j + 1) (Nat.succ_le_succ hj) r (.head first hr)) ?_
    exact hm.step hp (hbinds 0 (Nat.zero_le _) m (.refl m)) first

end Machine

/-! ## Simplified procedures -/

theorem Fuses.writes_eq (h : Fuses t x y z) : z.writes = y.writes := by
  cases h with
  | forward dest => exact writes_mapWrites dest
  | propagate _ _ _ notStep => exact writes_mapReads notStep
  | _ => rfl

/-- The one operation does not read the temporary. -/
theorem Fuses.reads_ne (h : Fuses t x y z) (hx : ∀ r ∈ x.reads, r.id ≠ t.id) : ∀ r ∈ z.reads, r.id ≠ t.id := by
  intro r hr
  cases h with
  | forward =>
    rw [reads_mapWrites] at hr
    exact hx r hr
  | compareRight _ _ other | compareLeft _ _ other =>
    obtain rfl := mem_singleton.mp hr
    exact other
  | subtract => exact hx r hr
  | propagate _ other =>
    rw [reads_mapReads] at hr
    obtain ⟨s, -, rfl⟩ := mem_map.mp hr
    by_cases hs : s.same t = true
    · rw [if_pos hs]
      exact other
    · rw [if_neg hs]
      exact fun hid => hs (Register.same_iff.mpr hid)

theorem Procedure.Simplifies.uniform {f : Procedure} (h : f.Simplifies g) (hf : f.Uniform) : g.Uniform :=
  { h.tidy hf.toTidy with
    parameters := fun q hq r hr => hf.parameters q (h.sameFace.parameters ▸ hq) r (h.mentioned r hr) }

theorem Activation.Orderly.inRange {a : Activation} (h : a.Orderly) : a.InRange :=
  fun r hr v hv hnumber => h.numbers r hr hnumber v hv

theorem Aligned.inRange {Dead : Numeral → Prop} (h : Aligned f g start m n Dead a b)
    (hg : ∀ r ∈ g.mentioned, r ∈ f.mentioned ∧ ¬Dead r.id) (ha : a.InRange) : b.InRange := by
  intro r hr v hv
  rw [h.right] at hr
  obtain ⟨hmentioned, hlives⟩ := hg r hr
  rw [h.agree r.id hlives] at hv
  exact ha r (h.left ▸ hmentioned) v hv

/-- The temporary is gone. -/
theorem Fusion.notMentioned (h : Fusion f pre x y z post t)
    (hr : f.Replaces g pre [x, y] [z] post) : ∀ r ∈ g.mentioned, r.id ≠ t.id := by
  intro r hmentioned
  obtain ⟨i, hi, hmentions⟩ := mem_flatMap.mp hmentioned
  have hwindow : i ∈ pre ++ post ∨ i = z := by
    rw [hr.instructions] at hi
    simp only [mem_append, mem_singleton] at hi ⊢
    tauto
  rcases hwindow with hi | rfl
  · rcases mem_append.mp hmentions with hread | hwrite
    · exact h.notRead i (by simp only [mem_append, mem_cons] at hi ⊢; tauto) r hread
    · exact h.notWritten i (by simp only [mem_append, mem_cons] at hi ⊢; tauto) r hwrite
  · rcases mem_append.mp hmentions with hread | hwrite
    · exact h.fuses.reads_ne (h.notRead x (by simp)) r hread
    · rw [h.fuses.writes_eq] at hwrite
      exact h.notWritten y (by simp) r hwrite

/-- Inside the window as well, the second activation holds what the first does, unless that cannot go on. -/
theorem Fusion.inRange (h : Fusion f pre x y z post t)
    (hr : f.Replaces g pre [x, y] [z] post) (hf : f.Uniform) {a} (ha : a.InRange)
    (hreact : ∀ units stop, a.react memory ≠ .stops units stop) (hinside : Inside f g pre.length x y t memory a b) :
    b.InRange := by
  have hg := (Simplifies.fuses hr h).mentioned
  cases hinside with
  | between aligned _ orderly =>
    exact aligned.inRange (fun r hmentioned => ⟨hg r hmentioned, h.notMentioned hr r hmentioned⟩) orderly.inRange
  | @ahead s target v left right _ _ second _ type value value' agree =>
    intro r hmentioned w hw
    rw [right] at hmentioned
    by_cases hid : r.id = target.id
    · -- the result is of the type of the temporary that held it
      have htarget : target ∈ f.mentioned := by
        refine mem_mentioned (hr.mem_before (.tail _ (.head _))) ?_
        rw [second]
        exact mem_append_right _ (mem_singleton.mpr rfl)
      have ht : t ∈ f.mentioned := by
        refine mem_mentioned (hr.mem_before (.head _)) ?_
        exact mem_append_right _ (mem_writes_of_plainDestination? h.fuses.plainDestination?_eq)
      rw [hid, value'] at hw
      cases hw
      rw [hf.types r (hg r hmentioned) target htarget hid, ← type]
      exact ha t (left ▸ ht) v value
    · rw [agree r.id (h.notMentioned hr r hmentioned) hid] at hw
      exact ha r (left ▸ hg r hmentioned) w hw
  | stuck left place second same unassigned =>
    obtain ⟨_, -, hstops⟩ := stops_of_stuck hr left place second same unassigned memory
    exact absurd hstops (hreact _ _)

/-- The second procedure runs like the first, and its registers are in their ranges where those of the first are. -/
structure KeepsPace (f g : Procedure) (Frame : Memory → Activation → Activation → Prop) : Prop where
  simulation : FrameSimulation (fun f' g' => f' = f ∧ g' = g) Activation.Orderly Frame Activation.remaining
  inRange : ∀ {memory a b}, a.Orderly → (∀ units stop, a.react memory ≠ .stops units stop) → Frame memory a b →
    b.InRange

theorem KeepsPace.refl (f : Procedure) : KeepsPace f f fun _ a b => b = a := by
  refine ⟨.self f, ?_⟩
  rintro _ a _ ho - rfl
  exact ho.inRange

theorem Procedure.Simplifies.keepsPace {f : Procedure} (h : f.Simplifies g) (hf : f.Uniform) :
    ∃ Frame, KeepsPace f g Frame := by
  have hg := h.mentioned
  cases h with
  | removes replaces removable =>
    refine ⟨_, (removable.window replaces hf.labels).simulation, ?_⟩
    rintro memory a b ho - (⟨hal, -⟩ | hinside)
    · exact hal.inRange (fun r hr => ⟨hg r hr, id⟩) ho.inRange
    · exact hinside.elim
  | cancels replaces cancels =>
    refine ⟨_, (cancels.window replaces).simulation, ?_⟩
    rintro memory a b ho - (⟨hal, -⟩ | ⟨a₀, hal, -, ho₀, -⟩)
    · exact hal.inRange (fun r hr => ⟨hg r hr, id⟩) ho.inRange
    · exact hal.inRange (fun r hr => ⟨hg r hr, id⟩) ho₀.inRange
  | fuses replaces fusion =>
    refine ⟨_, (fusion.window replaces).simulation, ?_⟩
    rintro memory a b ho hreact (⟨hal, -⟩ | hinside)
    · exact hal.inRange (fun r hr => ⟨hg r hr, fusion.notMentioned replaces r hr⟩) ho.inRange
    · exact fusion.inRange replaces hf ho.inRange hreact hinside

/-! ## Runs -/

namespace Machine

variable {p q : Program} {m m' n : Machine} {value : Option Value} {w : World} {k : Nat}

theorem reaction_ne_stops_of_running (h : m.advance p = .running n) (units : List UInt16) (stop : Stop) :
    m.reaction ≠ .stops units stop := by
  intro hstops
  obtain ⟨w, he, -⟩ := advance_of_stops (p := p) hstops
  rw [he] at h
  cases h

theorem reaction_ne_stops_of_returned (h : m.advance p = .ended (.returned value w)) (units : List UInt16)
    (stop : Stop) : m.reaction ≠ .stops units stop := by
  intro hstops
  obtain ⟨w, he, -⟩ := advance_of_stops (p := p) hstops
  rw [he] at h
  cases stop <;> cases h

/-- Activations of procedures of which the second keeps the pace of the first. -/
def Paced (memory : Memory) (a b : Activation) : Prop :=
  ∃ f g Frame, KeepsPace f g Frame ∧ Frame memory a b

/-- A run that returns is matched by one that returns the same in no more cycles, and that has its registers in
their ranges as well. The induction is on the first run; where the second stands still, it gets ahead. -/
theorem Steps.keepsPace (hpq : p.Corresponds (fun f g => ∃ Frame, KeepsPace f g Frame) q)
    (hgood : ∀ {j r}, Steps p j m r → r.active.Orderly) (hr : FrameSimulation.Related Paced m m')
    (hs : Steps p k m n) (he : n.advance p = .ended (.returned value w)) :
    ∃ k' n' w', k' ≤ k ∧ Steps q k' m' n' ∧ n'.advance q = .ended (.returned value w') ∧ w.Agrees w' ∧
      ∀ {j r'}, Steps q j m' r' → r'.active.InRange := by
  have S : FrameSimulation (fun f g => ∃ Frame, KeepsPace f g Frame) Orderly Paced remaining :=
    .of_pairs KeepsPace.simulation
  have hrange : ∀ {m m'}, m.active.Orderly → (∀ units stop, m.reaction ≠ .stops units stop) →
      FrameSimulation.Related Paced m m' → m'.active.InRange := by
    intro m _ ho hreact hr
    obtain ⟨f, g, _, hpace, hframe⟩ := hr.active
    exact hpace.inRange ho hreact hframe
  induction hs generalizing m' with
  | refl =>
    obtain ⟨w', he', hw⟩ := S.returned (q := q) (hgood (.refl _)) hr he
    refine ⟨0, m', w', Nat.le_refl _, .refl _, he', hw, fun hj => ?_⟩
    cases hj with
    | refl => exact hrange (hgood (.refl _)) (reaction_ne_stops_of_returned he) hr
    | head first =>
      rw [he'] at first
      cases first
  | @head k m m₁ n first _ ih =>
    have hgood₁ : ∀ {j r}, Steps p j m₁ r → r.active.Orderly := fun h => hgood (.head first h)
    rcases S.step hpq (hgood (.refl _)) hr first with ⟨hr₁, -⟩ | ⟨_, first', hr₁⟩
    · obtain ⟨k', n', w', hle, hs', hrest⟩ := ih hgood₁ hr₁ he
      exact ⟨k', n', w', Nat.le_succ_of_le hle, hs', hrest⟩
    · obtain ⟨k', n', w', hle, hs', he', hw, hafter⟩ := ih hgood₁ hr₁ he
      refine ⟨k' + 1, n', w', Nat.succ_le_succ hle, .head first' hs', he', hw, fun hj => ?_⟩
      cases hj with
      | refl => exact hrange (hgood (.refl _)) (reaction_ne_stops_of_running first) hr
      | head hfirst hrest =>
        rw [first'] at hfirst
        cases hfirst
        exact hafter hrest

end Machine

theorem World.Agrees.trans {w : World} (h : w.Agrees w') (h' : w'.Agrees w'') : w.Agrees w'' :=
  ⟨h'.memory.trans h.memory, h'.printed.trans h.printed, h'.callDepth.trans h.callDepth,
    h'.maxCallDepth.trans h.maxCallDepth, Nat.le_trans h'.cycles h.cycles⟩

namespace Program

variable {p q : Program} {symbol : Symbol} {arguments : List Value} {value : Option Value} {w : World} {k : Nat}

/-- A run that returns after so many steps, with registers in their ranges all along. -/
structure Returns (p : Program) (symbol : Symbol) (arguments : List Value) (k : Nat) (value : Option Value)
    (w : World) (f : Procedure) : Prop where
  found : p.find? symbol = some f
  arity : arguments.length = f.parameters.length
  ends : ∃ n, Machine.Steps p k (p.startOf f arguments) n ∧ n.advance p = .ended (.returned value w)
  inRange : ∀ {j r}, Machine.Steps p j (p.startOf f arguments) r → r.active.InRange

/-- Each procedure may give way to one that keeps its pace. -/
theorem Returns.keepsPace (hpq : p.Corresponds (fun f g => ∃ Frame, KeepsPace f g Frame) q)
    (h : p.Returns symbol args k value w f) :
    ∃ k' w' g, k' ≤ k ∧ w.Agrees w' ∧ q.Returns symbol args k' value w' g := by
  obtain ⟨n, hs, he⟩ := h.ends
  have S : FrameSimulation (fun f g => ∃ Frame, KeepsPace f g Frame) Orderly Paced
    remaining := .of_pairs KeepsPace.simulation
  obtain ⟨g, hg, hfg⟩ := hpq.exists_find? (fun _ _ => S.symbol) h.found
  have hstart : FrameSimulation.Related Paced (p.startOf f args) (q.startOf g args) :=
    ⟨⟨hpq.initialMemory, rfl, rfl, rfl, Nat.le_refl _⟩, S.start hfg args _, .nil⟩
  have hgood : ∀ {j r}, Steps p j (p.startOf f args) r → r.active.Orderly := fun hj =>
    ⟨fun r hr hn v hv => h.inRange hj r hr v hv hn, (supplied_of_steps hj).assigned⟩
  obtain ⟨k', n', w', hle, hs', he', hw, hrange⟩ := hs.keepsPace hpq hgood hstart he
  exact ⟨k', w', g, hle, hw, hg, h.arity.trans (by rw [S.parameters hfg]), ⟨n', hs', he'⟩, hrange⟩

/-- A run in which registers get values of their types has them in their ranges. -/
theorem returns_of_finished (hp : ∀ f ∈ p.procedures, f.Uniform)
    (h : p.runFunction symbol args limit = .ok (.finished value output cycles depth))
    (hranges : p.KeepsRanges symbol args limit) :
    ∃ f k w, k < cyclesAllowed limit ∧ p.Returns symbol args k value w f ∧ w.output = output ∧
      w.cycles = cycles ∧ w.maxCallDepth = depth := by
  obtain ⟨f, k, n, w, hf, hl, hk, hs, he, houtput, hcycles, hdepth⟩ := returned_of_finished h
  refine ⟨f, k, w, hk, ⟨hf, hl, ⟨n, hs, he⟩, fun {j r} hj => ?_⟩, houtput, hcycles, hdepth⟩
  have hmem := mem_of_find?_eq_some hf
  have hstart : (p.startOf f args).InRange p := ⟨⟨hmem, .start (hp f hmem) (hranges.given f hf)⟩, nofun⟩
  refine (hstart.steps hp hj fun i hi r' hr' => hranges.steps r' ?_).active.2
  have hle := Nat.le_trans hi (hs.le_of_ended he hj)
  simp only [machines, start?, hf, enter_eq hl]
  exact mem_trace_of_steps hr' (Nat.le_trans hle (Nat.le_of_lt hk))

/-- A whole chain of steps of simplification, in any procedures, keeps the pace. -/
theorem Returns.simplifies (hp : ∀ f ∈ p.procedures, f.Uniform)
    (h : p.Corresponds (Relation.ReflTransGen Simplifies) q) (hr : p.Returns symbol args k value w f) :
    ∃ k' w' g, k' ≤ k ∧ w.Agrees w' ∧ q.Returns symbol args k' value w' g := by
  have hpace : ∀ f g, f.Uniform → (g = f ∨ f.Simplifies g) → g.Uniform ∧ ∃ Frame, KeepsPace f g Frame := by
    rintro f g hf (rfl | hs)
    · exact ⟨hf, _, .refl _⟩
    · exact ⟨hs.uniform hf, hs.keepsPace hf⟩
  have hchain : ∀ {gs}, Relation.ReflTransGen (Forall₂ fun f g => g = f ∨ f.Simplifies g) p.procedures gs →
      (∀ g ∈ gs, g.Uniform) ∧ ∃ k' w' g, k' ≤ k ∧ w.Agrees w' ∧
        Returns { q with procedures := gs } symbol args k' value w' g := by
    intro gs hgs
    induction hgs with
    | refl => refine ⟨hp, hr.keepsPace ⟨h.globals, h.literals, forall₂_same.mpr fun f _ => ⟨_, .refl f⟩⟩⟩
    | @tail fs gs _ hlast ih =>
      obtain ⟨huniform, _, _, _, hle₁, hw₁, hr₁⟩ := ih
      refine ⟨fun g hg => ?_, ?_⟩
      · obtain ⟨f, hf, hfg⟩ := exists_origin hlast hg
        exact (hpace f g (huniform f hf) hfg).1
      · have hlink : Corresponds (fun f g => ∃ Frame, KeepsPace f g Frame) { q with procedures := fs }
            { q with procedures := gs } :=
          ⟨rfl, rfl, forall₂_of_mem hlast fun f hf g hfg => (hpace f g (huniform f hf) hfg).2⟩
        obtain ⟨k₂, w₂, g₂, hle₂, hw₂, hr₂⟩ := hr₁.keepsPace hlink
        exact ⟨k₂, w₂, g₂, Nat.le_trans hle₂ hle₁, hw₁.trans hw₂, hr₂⟩
  exact (hchain (reflTransGen_forall₂ h.procedures)).2

/-- Where the peephole pass has been over any of the procedures, a run that returned returns the same under the
same limit, with the same output and as deep in calls, and in no more cycles. -/
theorem peephole_keepsPace (hp : ∀ f ∈ p.procedures, f.Uniform)
    (hq : p.Corresponds (fun f g => g = f ∨ f.peephole = .ok g) q) {limit : Number} {output : List UInt16}
    {cycles depth : Nat} (h : p.runFunction symbol arguments limit = .ok (.finished value output cycles depth))
    (hranges : p.KeepsRanges symbol arguments limit) :
    ∃ cycles' ≤ cycles, q.runFunction symbol arguments limit = .ok (.finished value output cycles' depth) := by
  have hsimplifies : p.Corresponds (Relation.ReflTransGen Simplifies) q := by
    refine ⟨hq.globals, hq.literals, forall₂_of_mem hq.procedures ?_⟩
    rintro f hf g (rfl | hfg)
    · exact .refl
    · exact simplifies_of_peephole (fun f => Uniform.toTidy) (fun f g hs => hs.uniform) (hp f hf) hfg
  obtain ⟨f, k, w, hk, hreturns, rfl, rfl, rfl⟩ := returns_of_finished hp h hranges
  obtain ⟨_, w', g, hle, hw, hreturns'⟩ := hreturns.simplifies hp hsimplifies
  obtain ⟨_, hs', he'⟩ := hreturns'.ends
  refine ⟨w'.cycles, hw.cycles, ?_⟩
  rw [runFunction_of_some hreturns'.found hreturns'.arity,
    run_of_steps_ended hs' he' (Nat.lt_of_le_of_lt hle hk)]
  simp only [Ending.result, World.output, hw.printed, hw.maxCallDepth]

/-- Doubles a number, by way of a temporary. -/
def doubling : Procedure :=
  let u8 := Ty.integer 8 false
  let number : Register := ⟨.natural 1, u8⟩
  let double : Register := ⟨.natural 2, u8⟩
  let result : Register := ⟨.natural 3, u8⟩
  { symbol := ⟨"M", "double", []⟩
    parameters := [⟨"number", number⟩]
    returnType := u8
    locals := []
    registers := [number, double, result]
    instructions := [⟨.binary .add number number double, ""⟩, ⟨.move double result, ""⟩, ⟨.ret (some result), ""⟩]
    smcRequested := false
    isTailRecursive := false
    convention := .standard }

/-- The same without the temporary. -/
def doublingFused : Procedure :=
  let u8 := Ty.integer 8 false
  { doubling with
    instructions := [⟨.binary .add ⟨.natural 1, u8⟩ ⟨.natural 1, u8⟩ ⟨.natural 3, u8⟩, ""⟩,
      ⟨.ret (some ⟨.natural 3, u8⟩), ""⟩] }

theorem doubling_uniform : doubling.Uniform where
  labels := by decide
  named := by decide
  types := by decide
  parameters := by decide
  operands := by
    intro i hi _ l r d h
    simp only [doubling, mem_cons, not_mem_nil, or_false] at hi
    rcases hi with rfl | rfl | rfl <;> cases h
    exact ⟨rfl, rfl⟩

theorem doubling_keepsRanges : KeepsRanges ⟨"M", [doubling], [], []⟩ doubling.symbol [.number 200] 3 where
  given f hf param v h _ := by
    cases hf
    cases mem_singleton.mp h
    exact ⟨200, rfl, by decide⟩
  steps m hm r v h _ := by
    have hmachines : machines ⟨"M", [doubling], [], []⟩ doubling.symbol [.number 200] 3 =
      [⟨⟨[], [], 0, 1, 1⟩, ⟨doubling, 0, [(.natural 1, .number 200)]⟩, []⟩,
       ⟨⟨[], [], 1, 1, 1⟩, ⟨doubling, 1, [(.natural 1, .number 200), (.natural 2, .number 144)]⟩, []⟩,
       ⟨⟨[], [], 2, 1, 1⟩, ⟨doubling, 2, [(.natural 1, .number 200), (.natural 2, .number 144),
        (.natural 3, .number 144)]⟩, []⟩] := by rfl
    rw [hmachines] at hm
    simp only [mem_cons, not_mem_nil, or_false] at hm
    rcases hm with rfl | rfl | rfl <;> cases h with
    | writes next outcome write =>
      cases next
      cases outcome <;> cases write <;> exact ⟨144, rfl, by decide⟩
    | passes reaction => cases reaction
    | returns _ callers => cases callers

/-- The sum wraps, and there are only as many cycles as the longer program needs. -/
theorem doubling_keepsPace :
    doubling.peephole = .ok doublingFused ∧
      runFunction ⟨"M", [doubling], [], []⟩ doubling.symbol [.number 200] 3 =
        .ok (.finished (some (.number 144)) [] 3 1) ∧
      KeepsRanges ⟨"M", [doubling], [], []⟩ doubling.symbol [.number 200] 3 ∧
      ∃ cycles ≤ 3, runFunction ⟨"M", [doublingFused], [], []⟩ doubling.symbol [.number 200] 3 =
        .ok (.finished (some (.number 144)) [] cycles 1) := by
  have hpeephole : doubling.peephole = .ok doublingFused := by decide +kernel
  have hrun : runFunction ⟨"M", [doubling], [], []⟩ doubling.symbol [.number 200] 3 =
    .ok (.finished (some (.number 144)) [] 3 1) := by decide +kernel
  have hcorresponds : Corresponds (fun f g => g = f ∨ f.peephole = .ok g) ⟨"M", [doubling], [], []⟩
    ⟨"M", [doublingFused], [], []⟩ := ⟨rfl, rfl, .cons (Or.inr hpeephole) .nil⟩
  refine ⟨hpeephole, hrun, doubling_keepsRanges, peephole_keepsPace ?_ hcorresponds hrun doubling_keepsRanges⟩
  intro f hf
  rw [mem_singleton.mp hf]
  exact doubling_uniform

end Program

end Retarget
