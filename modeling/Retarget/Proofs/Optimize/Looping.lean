import Retarget.Proofs.Optimize.TailCall

/-!
# Runs of procedures without their tail calls

An activation of a converted procedure stands for the innermost of a chain of activations, each of which has
called the next by a tail call. It knows what that activation knows, and maybe more from earlier rounds.
-/
namespace Retarget

open Activation List Machine Operation Procedure

/-- What a procedure needs to be run as a loop: a table of registers that has all it mentions and can hand out more,
calls of itself with all arguments, and returns that all carry a value or all carry none. -/
structure Procedure.Loopable (f : Procedure) : Prop where
  numbered : f.registers.IsNumbered
  mentions : ∀ i ∈ f.instructions, ∀ r ∈ i.operation.mentions, r ∈ f.registers
  parameters : ∀ q ∈ f.parameters, q.register ∈ f.registers
  distinct : f.parameterIds.Nodup
  arity : ∀ i ∈ f.instructions, ∀ arguments destination,
    i.operation = .call (.function f.symbol) arguments destination → arguments.length = f.parameters.length
  returns : (∀ i ∈ f.instructions, i.operation ≠ .ret none) ∨ ∀ i ∈ f.instructions, ∀ r, i.operation ≠ .ret (some r)

theorem Procedure.Consistent.loopable {p : Program} {f} (hf : f.Consistent p) (hfound : p.find? f.symbol = some f) :
    f.Loopable where
  numbered := hf.numbered
  mentions := hf.mentions
  parameters := hf.parameters
  distinct := hf.distinct
  arity i hi args dest hop := by
    have hconsistent := hf.operations i hi
    rw [hop] at hconsistent
    obtain ⟨g, hg, htypes, -⟩ := hconsistent
    rw [hfound] at hg
    cases hg
    simpa using congrArg length htypes
  returns := by
    by_cases hvoid : f.returnType = .void
    · refine Or.inr fun i hi r hop => ?_
      have hconsistent := hf.operations i hi
      rw [hop] at hconsistent
      exact hconsistent.2 hvoid
    · refine Or.inl fun i hi hop => hvoid ?_
      have hconsistent := hf.operations i hi
      rw [hop] at hconsistent
      exact hconsistent

/-! ## Activations -/

/-- The activation is about to make a tail call of its own procedure. -/
def Activation.AtTailCall (a : Activation) (arguments : List Register) : Prop :=
  ∃ i j code, a.rest = i :: j :: code ∧
    Operation.tailCall? a.procedure.symbol i.operation j.operation = some arguments

/-- The second activation, of the converted procedure, stands where the first stands and knows what it knows. -/
structure Looping (f : Procedure) (a b : Activation) : Prop where
  left : a.procedure = f
  right : b.procedure = f.asLoop
  place : ∃ table table', f.registers.length ≤ table.length ∧ f.Converts a.rest table b.rest table'
  agree : ∀ r ∈ f.registers, ∀ v, a.registers.get? r.id = some v → b.registers.get? r.id = some v

namespace Looping

variable {f : Procedure} {a b : Activation} {memory : Memory}

/-- What can be read can be read in the converted procedure. -/
theorem get_follows (h : Looping f a b) (hr : r ∈ f.registers) : Follows (a.get r) (b.get r) := by
  cases hg : a.get r with
  | ok v => exact get_eq_ok.mpr (h.agree r hr v (get_eq_ok.mp hg))
  | error stop =>
    cases stop with
    | failure => exact fun hp => absurd hp (get_improper _ _ _ hg)
    | fault => trivial

theorem written (h : ∀ r ∈ f.registers, ∀ v, a.registers.get? r.id = some v → b.registers.get? r.id = some v)
    (w : Option (Register × Option Value)) :
    ∀ r ∈ f.registers, ∀ v, (a.written w).registers.get? r.id = some v →
      (b.written w).registers.get? r.id = some v := by
  intro r hr v hv
  cases w with
  | none => exact h r hr v hv
  | some =>
    rw [get?_written] at hv ⊢
    split at hv
    · rename_i hid
      rw [if_pos hid, hv]
    · rename_i hid
      rw [if_neg hid]
      exact h r hr v hv

/-- A label of the procedure is found in the converted one, with the code behind it. -/
theorem labelPlace? (hk : f.labelPlace? name = some k) :
    ∃ k' table table', f.asLoop.labelPlace? name = some k' ∧ f.registers.length ≤ table.length ∧
      f.Converts (f.instructions.drop k) table (f.asLoop.instructions.drop k') table' := by
  obtain ⟨k', table₁, hk', hle, hrest⟩ := (f.converts_withoutTailCalls f.instructions f.registers).findIdx? hk
  have hname : (label f.loopLabel).labels name = false := by
    obtain ⟨hlt, hlabel, -⟩ := findIdx?_eq_some_iff_getElem.mp hk
    have hfree := f.loopLabel_spec.2 _ (getElem_mem hlt)
    cases hl : (label f.loopLabel).labels name with
    | false => rfl
    | true =>
      obtain rfl : f.loopLabel = name := beq_iff_eq.mp hl
      rw [hfree] at hlabel
      cases hlabel
  refine ⟨k' + 1, table₁, (f.withoutTailCalls f.loopLabel f.instructions f.registers).2, ?_, hle, ?_⟩
  · rw [asLoop_eq, Procedure.labelPlace?, findIdx?_cons, hname, hk']
    rfl
  · rw [asLoop_eq]
    exact hrest

/-- Except at tail calls, both activations do the same. -/
theorem mirrors (hf : f.Loopable) (h : Looping f a b) (hplain : ∀ args, ¬a.AtTailCall args) {rank : Activation → Nat} :
    Mirrors (fun _ => Looping f) rank memory a b := by
  obtain ⟨table, table', hle, hconverts⟩ := h.place
  generalize hcode : a.rest = code at hconverts
  generalize hcode' : b.rest = code' at hconverts
  cases hconverts with
  | nil =>
    refine .of_past (next?_of_rest_nil hcode) (next?_of_rest_nil hcode') ?_
    rw [h.left, h.right, f.sameFace_asLoop.symbol]
  | @plain i _ _ _ _ _ rest =>
    have hi : i ∈ f.instructions := by
      rw [← h.left]
      exact mem_of_mem_drop (hcode ▸ .head _ : i ∈ a.rest)
    have hmentions := hf.mentions i hi
    refine .of_reflects (next?_of_rest hcode) (next?_of_rest hcode') ?_
      (fun {e pos} hd hgo => ?_) fun {_ _ dest} _ _ value => ?_
    · exact outcome_reflects fun r hr => h.get_follows (hmentions r (mem_append_left _ hr))
    · cases ht : e.target with
      | none =>
        rw [ht] at hgo
        obtain rfl : pos = a.position + 1 := hgo
        refine ⟨b.position + 1, rfl, ?_, ?_, ⟨table, table', hle, ?_⟩, ?_⟩
        · exact (written_procedure _ _).trans h.left
        · exact (written_procedure _ _).trans h.right
        · rw [Activation.rest, Activation.rest, written_procedure, written_procedure]
          exact rest_of_next hcode ▸ rest_of_next hcode' ▸ rest
        · exact written h.agree e.write
      | some =>
        rw [ht, h.left] at hgo
        obtain ⟨pos', table₁, table₁', hgo', hle₁, hconverts⟩ := labelPlace? hgo
        rw [h.right]
        refine ⟨pos', hgo', ?_, ?_, ⟨table₁, table₁', hle₁, ?_⟩, ?_⟩
        · exact (written_procedure _ _).trans h.left
        · exact (written_procedure _ _).trans h.right
        · rw [Activation.rest, Activation.rest, written_procedure, written_procedure,
            h.left, h.right]
          exact hconverts
        · exact written h.agree e.write
    · refine ⟨?_, ?_, ⟨table, table', hle, ?_⟩,
        written (a := a.tick) (b := b.tick) h.agree _⟩
      · exact (written_procedure _ _).trans h.left
      · exact (written_procedure _ _).trans h.right
      · rw [Activation.rest, Activation.rest, written_procedure, written_procedure,
          written_position, written_position]
        exact rest_of_next hcode ▸ rest_of_next hcode' ▸ rest
  | tail call => exact absurd ⟨_, _, _, hcode, h.left ▸ call⟩ (hplain _)

/-- An activation just entered and one of the converted procedure that is behind the loop's label. -/
theorem entered (hb : b.procedure = f.asLoop) (hp : b.position = 1)
    (hvals : ∀ id v, (f.activation values).registers.get? id = some v → b.registers.get? id = some v) :
    Looping f (f.activation values) b := by
  have hconverts := f.converts_withoutTailCalls f.instructions f.registers
  refine ⟨rfl, hb, ⟨f.registers, (f.withoutTailCalls f.loopLabel f.instructions f.registers).2,
    Nat.le_refl _, ?_⟩, fun r _ v hv => hvals r.id v hv⟩
  rw [rest, rest, hb, hp, asLoop_eq]
  exact hconverts

/-- An activation that knows the parameters' values knows what one just entered knows. -/
theorem get?_of_activation
    (hvals : Forall₂ (fun q v => b.registers.get? q.register.id = some v) f.parameters values) (id : Numeral)
    (v : Value) (hv : (f.activation values).registers.get? id = some v) : b.registers.get? id = some v := by
  have hmem := Assoc.mem_of_get?_ofPairs hv
  rw [parameterIds, zip_map_left, mem_map] at hmem
  obtain ⟨⟨q, w⟩, hq, heq⟩ := hmem
  obtain ⟨rfl, rfl⟩ := Prod.mk.inj heq
  exact forall₂_zip hvals hq

/-- The converted procedure passes its label. -/
theorem runs_label (hb : b.procedure = f.asLoop) (hp : b.position = 0) (memory : Memory) :
    b.Runs memory 1 { b with position := 1 } := by
  have hnext : b.next? = some ⟨.label f.loopLabel, "Tail recursion re-enters here"⟩ := by
    rw [Activation.next?, hb, hp, asLoop_eq]
    rfl
  refine .head (react_of_does hnext (e := ⟨none, none, memory, []⟩) .label ?_) (.refl _)
  show 1 = b.position + 1
  rw [hp]

/-- Where the procedure makes a tail call, the converted one goes round its loop. -/
theorem runs_tail (hf : f.Loopable) (h : Looping f a b) (hat : a.AtTailCall args)
    (hvals : args.mapM a.get = .ok values) (hlen : values.length = f.parameters.length) (memory : Memory) :
    ∃ k c, b.Runs memory (k + 1) c ∧ Looping f (f.activation values) c := by
  obtain ⟨i, j, code, hcode, hcall⟩ := hat
  rw [h.left] at hcall
  obtain ⟨table, _, hle, hconverts⟩ := h.place
  rw [hcode] at hconverts
  generalize hcode' : b.rest = code' at hconverts
  cases hconverts with
  | plain notTail =>
    rw [notTail j code rfl] at hcall
    cases hcall
  | @tail _ _ _ _ _ _ _ call =>
    rw [hcall] at call
    cases call
    have hread := (Checked.forall₂_of_mapM hvals).imp fun _ _ => get_eq_ok.mp
    have hregs : ∀ r ∈ args, r ∈ f.registers := by
      obtain ⟨_, _, hop, -⟩ := of_tailCall? hcall
      have hi : i ∈ f.instructions := by
        rw [← h.left]
        exact mem_of_mem_drop (hcode ▸ .head _ : i ∈ a.rest)
      intro r hr
      refine hf.mentions i hi r (mem_append_left _ ?_)
      rw [hop]
      exact hr
    have hsettled : ∀ r ∈ f.registers, table.Settled r.id := fun r hr => (hf.numbered.settled hr).mono hle
    obtain ⟨k, c, hruns, hc, hrest, hfinal, -⟩ := runs_rebinding memory hcode' hf.distinct
      (fun q hq => hsettled _ (hf.parameters q hq)) (fun r hr => hsettled r (hregs r hr))
      (by rw [← hlen, hread.length_eq])
      (forall₂_of_mem hread fun r hr v hv => h.agree r (hregs r hr) v hv)
    -- back to the label, and past it
    have hgoto : c.react memory = .goesOn { c with position := 0 } memory [] := by
      refine react_of_does (next?_of_rest hrest)
        (e := ⟨none, some f.loopLabel, memory, []⟩) .goto ?_
      rw [hc, h.right, asLoop_eq]
      simp [GoesTo, Procedure.labelPlace?, findIdx?_cons, Operation.labels]
    have hproc : c.procedure = f.asLoop := hc.trans h.right
    have hlabel := runs_label (b := { c with position := 0 }) hproc rfl memory
    exact ⟨k + 1, _, hruns.trans (.head hgoto hlabel), entered hproc rfl (get?_of_activation hfinal)⟩

end Looping

/-- The procedure is the one that its symbol stands for, and may be run as a loop. -/
def Program.Loops (p : Program) (f : Procedure) : Prop := f.Loopable ∧ p.find? f.symbol = some f

/-- The second activation is the first, or its like in a converted procedure. -/
def Looped (p : Program) (a b : Activation) : Prop := b = a ∨ ∃ f, p.Loops f ∧ Looping f a b

theorem Looped.mirrors (h : Looped p a b) (memory : Memory) :
    Mirrors (fun _ => Looped p) (fun _ => 0) memory a b ∨
      ∃ arguments, p.Loops a.procedure ∧ Looping a.procedure a b ∧ a.AtTailCall arguments := by
  rcases h with rfl | ⟨f, hf, h⟩
  · exact Or.inl (Mirrors.self.mono Or.inl)
  · by_cases hat : ∃ arguments, a.AtTailCall arguments
    · obtain ⟨arguments, hat⟩ := hat
      rw [h.left]
      exact Or.inr ⟨arguments, hf, h, hat⟩
    · exact Or.inl ((h.mirrors hf.1 (not_exists.mp hat)).mono fun h => Or.inr ⟨f, hf, h⟩)

/-- A tail call reads its arguments and is made, or fails improperly. -/
theorem Activation.AtTailCall.react {a : Activation} (h : a.AtTailCall args) (memory : Memory) :
    ∃ i j dest reg, i ∈ a.procedure.instructions ∧
      i.operation = .call (.function a.procedure.symbol) args dest ∧
      a.tick.next? = some j ∧ j.operation = .ret reg ∧
      dest.map Register.id = reg.map Register.id ∧
      ((∃ values, args.mapM a.get = .ok values ∧
        a.react memory = .calls a.procedure.symbol values a.tick dest) ∨
      ∃ stop, a.react memory = .stops [] stop ∧ ∀ failure, stop = .failure failure → ¬failure.IsProper) := by
  obtain ⟨i, j, _, hcode, hcall⟩ := h
  obtain ⟨dest, reg, hi, hj, hid⟩ := of_tailCall? hcall
  have hnext := next?_of_rest hcode
  refine ⟨i, j, dest, reg, mem_of_getElem? hnext, hi,
    next?_of_rest (a := a.tick) (rest_of_next hcode), hj, hid, ?_⟩
  cases hvals : args.mapM a.get with
  | ok values => exact Or.inl ⟨values, rfl, react_of_calls hnext hi hvals⟩
  | error stop =>
    refine Or.inr ⟨stop, react_of_stops hnext ?_, ?_⟩
    · rw [hi]
      simp only [outcome, reading, hvals]
    · rintro _ rfl
      exact StopsOnly.mapM (fun r _ => a.get_improper r) _ hvals

/-! ## Callers that only hand on a result -/

/-- The caller will do nothing but return what it gets. -/
def Suspended.HandsOn (s : Suspended) : Prop :=
  ∃ i register, s.activation.next? = some i ∧ i.operation = .ret register ∧
    s.destination.map Register.id = register.map Register.id

theorem Suspended.HandsOn.react {s : Suspended} (h : s.HandsOn) (hr : s.resume value = some a)
    (hnone : s.destination = none → value = none) (hnull : value ≠ some .null) (memory : Memory) :
    a.react memory = .returns value := by
  obtain ⟨i, reg, hi, hop, hid⟩ := h
  rcases resume_cases hr with ⟨hd, rfl⟩ | ⟨r, v, hd, rfl, rfl⟩
  · rw [hnone hd]
    rw [hd] at hid
    cases reg with
    | none => exact react_of_returns hi (by rw [hop]; rfl)
    | some => cases hid
  · rw [hd] at hid
    cases reg with
    | none => cases hid
    | some r' =>
      have hid : r.id = r'.id := Option.some.inj hid
      have hget : (s.activation.set r v).get r' = .ok v := by
        rw [get_eq_ok]
        exact (get?_written s.activation r (some v) r'.id).trans (if_pos hid)
      refine react_of_returns (a := s.activation.set r v) hi ?_
      rw [hop]
      simp only [outcome, reading, hget]
      cases v with
      | null => exact absurd rfl hnull
      | number | pointer => rfl

/-- What is returned is never null. -/
theorem Activation.returns_ne_null {a : Activation} (h : a.react memory = .returns value) : value ≠ some .null := by
  obtain ⟨i, -, ⟨-, rfl⟩ | ⟨r, v, -, -, rfl⟩⟩ := returns_of_react h
  · nofun
  · cases v <;> nofun

/-- The callers of a procedure wait alike, but for some of the same procedure that only hand on a result. -/
inductive Callers (p : Program) : Procedure → List Suspended → List Suspended → Prop
  | nil {f : Procedure} : Callers p f [] []
  | cons {f : Procedure} {s s' : Suspended} {callers callers' : List Suspended}
      (waits : Waits (fun _ => Looped p) s s') (rest : Callers p s.activation.procedure callers callers') :
      Callers p f (s :: callers) (s' :: callers')
  | handsOn {s : Suspended} {callers callers' : List Suspended} (loops : p.Loops s.activation.procedure)
      (handsOn : s.HandsOn) (rest : Callers p s.activation.procedure callers callers') :
      Callers p s.activation.procedure (s :: callers) callers'

theorem Callers.length_le {p f callers callers'} (h : Callers p f callers callers') :
    callers'.length ≤ callers.length := by
  induction h with
  | nil => exact Nat.le_refl _
  | cons _ _ ih => exact Nat.succ_le_succ ih
  | handsOn _ _ _ ih => exact Nat.le_succ_of_le ih

/-! ## Machines -/

theorem Program.find?_of_mem {p : Program} (hd : (p.procedures.map (·.symbol)).Nodup) (hf : f ∈ p.procedures) :
    p.find? f.symbol = some f := by
  cases hg : p.find? f.symbol with
  | none =>
    have hnone := find?_eq_none.mp hg f hf
    simp at hnone
  | some g =>
    have hsym : g.symbol = f.symbol := by simpa using find?_some hg
    exact congrArg some (inj_on_of_nodup_map hd (mem_of_find?_eq_some hg) hf hsym)

/-- The second procedure is the first, or the first as a loop. -/
def Procedure.MayLoop (f g : Procedure) : Prop := g = f ∨ f.Loopable ∧ g = f.asLoop

theorem Procedure.MayLoop.sameFace {f : Procedure} (h : f.MayLoop g) : f.SameFace g := by
  rcases h with rfl | ⟨-, rfl⟩
  · exact .refl _
  · exact f.sameFace_asLoop

/-- The second machine does without the callers that only hand on a result. While such callers do so, the
second machine waits to return the same. -/
structure Machine.Shortened (p : Program) (m m' : Machine) : Prop where
  memory : m'.world.memory = m.world.memory
  printed : m'.world.printed = m.world.printed
  maxCallDepth : m'.world.maxCallDepth ≤ m.world.maxCallDepth
  depth : m.world.callDepth = m.callers.length + 1
  depth' : m'.world.callDepth = m'.callers.length + 1
  active : Looped p m.active m'.active ∨ ∃ value, m.reaction = .returns value ∧ m'.reaction = .returns value
  callers : Callers p m.active.procedure m.callers m'.callers

namespace Machine.Shortened

variable {p q : Program} {m m' : Machine}

theorem reaction_eq (h : m.Shortened p m') (hb : m'.active.react m.world.memory = r) : m'.reaction = r := by
  rw [reaction, h.memory, hb]

/-- Both machines return the same. -/
theorem returns_eq (h : m.Shortened p m') (hr : m.reaction = .returns value) : m'.reaction = .returns value := by
  rcases h.active with hlooped | ⟨_, hreturns, hreturns'⟩
  · rcases hlooped.mirrors m.world.memory with hm | ⟨_, _, _, hat⟩
    · exact h.reaction_eq (hm.returns hr)
    · obtain ⟨_, _, _, _, _, _, _, _, _, ⟨_, _, hreact⟩ | ⟨_, hreact, _⟩⟩ := hat.react m.world.memory <;>
        cases hreact.symm.trans hr
  · cases hreturns.symm.trans hr
    exact hreturns'

/-- A return from both machines, or from the first to a caller that only hands on. -/
theorem returns (h : m.Shortened p m') {value} (hr : m.reaction = .returns value) {s rest} {a : Activation}
    (hc : m.callers = s :: rest) (ha : s.resume value = some a) :
    (Shortened p ⟨(m.world.after m.world.memory []).left, a, rest⟩ m' ∧ rest.length < m.callers.length) ∨
      ∃ n', m'.advance q = .running n' ∧ Shortened p ⟨(m.world.after m.world.memory []).left, a, rest⟩ n' := by
  have hr' := h.returns_eq hr
  have hprocedure := (Suspended.resume_eq ha).1
  have hcallers := h.callers
  have hdepth : m.world.callDepth - 1 = rest.length + 1 := by
    rw [h.depth, hc]
    rfl
  rw [hc] at hcallers
  generalize hc' : m'.callers = callers' at hcallers
  generalize hf : m.active.procedure = f at hcallers
  cases hcallers with
  | @cons _ _ s' _ rest' waits hrest =>
    obtain ⟨_, ha', hlooped⟩ := waits m.world.memory value a ha
    refine Or.inr ⟨_, advance_of_returns hr' hc' ha', ?_, h.printed, h.maxCallDepth, hdepth, ?_,
      Or.inl hlooped, hprocedure ▸ hrest⟩
    · exact h.memory
    · show m'.world.callDepth - 1 = rest'.length + 1
      rw [h.depth', hc']
      rfl
  | handsOn loops handsOn hrest =>
    have hnone : s.destination = none → value = none := by
      intro hd
      obtain ⟨i, reg, hi, hop, hid⟩ := handsOn
      rw [hd] at hid
      obtain ⟨j, hj, ⟨-, hnone⟩ | ⟨r, v, hret, -⟩⟩ := returns_of_react hr
      · exact hnone
      · -- the procedure has a return with a value and one without
        rcases loops.1.returns with hreturns | hreturns
        · cases reg with
          | none => exact absurd hop (hreturns i (mem_of_getElem? hi))
          | some => cases hid
        · exact absurd hret (hreturns j (hf ▸ mem_of_getElem? hj) r)
    have hreact := handsOn.react ha hnone (returns_ne_null hr) m.world.memory
    refine Or.inl ⟨⟨h.memory, h.printed, h.maxCallDepth, hdepth, h.depth', Or.inr ⟨value, hreact, hr'⟩,
      hc' ▸ hprocedure ▸ hrest⟩, ?_⟩
    rw [hc]
    exact Nat.lt_succ_self _

/-- An unchanged procedure is entered alike, a converted one passes its label first. -/
theorem enters {symbol f g} (hf : p.find? symbol = some f) (hfg : f.MayLoop g) (values : List Value) (w : World)
    (callers : List Suspended) :
    ∃ k cycles b, Steps q k ⟨w, g.activation values, callers⟩ ⟨{ w with cycles }, b, callers⟩ ∧
      Looped p (f.activation values) b := by
  rcases hfg with rfl | ⟨hloopable, rfl⟩
  · exact ⟨0, w.cycles, _, .refl _, Or.inl rfl⟩
  · have hsym : f.symbol = symbol := by simpa using find?_some hf
    have hruns := Looping.runs_label (b := f.asLoop.activation values) rfl rfl w.memory
    obtain ⟨cycles, hs⟩ := hruns.steps w rfl callers
    exact ⟨1, cycles, _, hs, Or.inr ⟨f, ⟨hloopable, hsym ▸ hf⟩, .entered rfl rfl fun id v hv => hv⟩⟩

theorem goesOn (h : m.Shortened p m') {next : Activation} {memory units} (hr : m.reaction = .goesOn next memory units) :
    ∃ n', m'.advance q = .running n' ∧ Shortened p ⟨m.world.after memory units, next, m.callers⟩ n' := by
  rcases h.active with hlooped | ⟨_, hreturns, -⟩
  · rcases hlooped.mirrors m.world.memory with hmirrors | ⟨_, _, _, hat⟩
    · rcases hmirrors.goesOn hr with ⟨-, -, -, hlt⟩ | ⟨_, hb, hnext⟩
      · exact absurd hlt (Nat.lt_irrefl 0)
      · refine ⟨_, advance_of_goesOn (h.reaction_eq hb), rfl, ?_, h.maxCallDepth, h.depth, h.depth',
          Or.inl hnext, (procedure_of_goesOn hr).symm ▸ h.callers⟩
        exact congrArg (units.reverse ++ ·) h.printed
    · obtain ⟨_, _, _, _, _, _, _, _, _, ⟨_, _, hreact⟩ | ⟨_, hreact, _⟩⟩ := hat.react m.world.memory <;>
        cases hreact.symm.trans hr
  · cases hreturns.symm.trans hr

/-- Where the first machine makes a call, the second makes it too or goes round a loop. -/
theorem calls (hpq : p.Corresponds MayLoop q) (h : m.Shortened p m') {symbol} {values : List Value} {caller}
    {destination : Option Register} {f} (hr : m.reaction = .calls symbol values caller destination)
    (hf : p.find? symbol = some f) (hl : values.length = f.parameters.length) :
    ∃ k n', Steps q (k + 1) m' n' ∧
      Shortened p ⟨(m.world.after m.world.memory []).entered, f.activation values,
        ⟨caller, f.symbol, destination⟩ :: m.callers⟩ n' := by
  have hdepth : (m.world.after m.world.memory []).entered.callDepth = m.callers.length + 1 + 1 :=
    congrArg (· + 1) h.depth
  have hcallers : Callers p caller.procedure m.callers m'.callers := by
    obtain ⟨_, _, -, -, -, rfl⟩ := calls_of_react hr
    exact h.callers
  rcases h.active with hlooped | ⟨_, hreturns, -⟩
  · rcases hlooped.mirrors m.world.memory with hmirrors | ⟨_, hloops, hloop, hat⟩
    · obtain ⟨caller', destination', hb, hwaits⟩ := hmirrors.calls hr
      obtain ⟨g, hg, hfg⟩ := hpq.exists_find? (fun _ _ h => h.sameFace.symbol) hf
      have hl' : values.length = g.parameters.length := by rw [hl, hfg.sameFace.parameters]
      obtain ⟨k, _, b, hsteps, hentered⟩ := enters (q := q) hf hfg values
        (m'.world.after m'.world.memory []).entered (⟨caller', g.symbol, destination'⟩ :: m'.callers)
      refine ⟨k, _, .head (advance_of_calls (h.reaction_eq hb) hg hl') hsteps, ?_⟩
      refine ⟨h.memory, h.printed, ?_, hdepth, congrArg (· + 1) h.depth', Or.inl hentered, .cons ?_ hcallers⟩
      · have hle := h.callers.length_le
        have hmax := h.maxCallDepth
        show max m'.world.maxCallDepth (m'.world.callDepth + 1) ≤ max m.world.maxCallDepth (m.world.callDepth + 1)
        rw [h.depth, h.depth']
        omega
      · rw [hfg.sameFace.symbol]
        exact hwaits f.symbol
    · obtain ⟨i, j, d, register, -, -, hnext, hret, hid, ⟨_, hvals, hreact⟩ | ⟨_, hreact, -⟩⟩ :=
        hat.react m.world.memory
      · cases hreact.symm.trans hr
        cases hloops.2.symm.trans hf
        obtain ⟨k, c, hruns, hentered⟩ := hloop.runs_tail hloops.1 hat hvals hl m.world.memory
        obtain ⟨_, hsteps⟩ := hruns.steps (p := q) m'.world h.memory m'.callers
        refine ⟨k, _, hsteps, h.memory, h.printed, ?_, hdepth, h.depth', Or.inl (Or.inr ⟨_, hloops, hentered⟩),
          .handsOn (s := ⟨m.active.tick, _, _⟩) hloops ⟨j, register, hnext, hret, hid⟩ h.callers⟩
        exact Nat.le_trans h.maxCallDepth (Nat.le_max_left _ _)
      · cases hreact.symm.trans hr
  · cases hreturns.symm.trans hr

/-- Where the first machine ends its run properly, the second ends its own alike. -/
theorem ends (hpq : p.Corresponds MayLoop q) (h : m.Shortened p m') (hm : m.IsAnswered) {e : Ending}
    (he : m.advance p = .ended e) (hproper : e.IsProper) : ∃ e', m'.advance q = .ended e' ∧ e.Matches e' := by
  cases ends_of_ended he with
  | stops reaction printed =>
    rcases h.active with hlooped | ⟨_, hreturns, -⟩
    · rcases hlooped.mirrors m.world.memory with hm | ⟨_, _, _, hat⟩
      · obtain ⟨_, hsimilar, hb⟩ := hm.stops reaction hproper
        obtain ⟨_, he', hw'⟩ := advance_of_stops (p := q) (h.reaction_eq hb)
        refine ⟨_, he', hsimilar, ?_⟩
        rw [hw', printed, h.printed]
      · obtain ⟨_, _, _, _, _, _, _, _, _, ⟨_, _, hreact⟩ | ⟨_, hreact, himproper⟩⟩ := hat.react m.world.memory
        · cases hreact.symm.trans reaction
        · cases hreact.symm.trans reaction
          exact absurd hproper (himproper _ rfl)
    · cases hreturns.symm.trans reaction
  | @wrongArity _ values _ _ f failure reaction found arity stop =>
    rcases h.active with hlooped | ⟨_, hreturns, -⟩
    · rcases hlooped.mirrors m.world.memory with hm | ⟨arguments, hloops, -, hat⟩
      · obtain ⟨_, _, hb, -⟩ := hm.calls reaction
        obtain ⟨g, hg, hfg⟩ := hpq.exists_find? (fun _ _ h => h.sameFace.symbol) found
        have hstop : wrongArity g values = .failure failure := by
          rw [← stop, wrongArity, hfg.sameFace.symbol, hfg.sameFace.parameters]
          rfl
        refine ⟨_, advance_of_calls_wrongArity (h.reaction_eq hb) hg (hfg.sameFace.parameters ▸ arity), ?_⟩
        rw [hstop]
        exact ⟨.refl _, h.printed⟩
      · -- a procedure that may be run as a loop calls itself with as many arguments as it has parameters
        obtain ⟨i, _, d, _, hi, hop, _, _, _, ⟨_, hvals, hreact⟩ | ⟨_, hreact, _⟩⟩ := hat.react m.world.memory
        · cases hreact.symm.trans reaction
          cases hloops.2.symm.trans found
          rw [← (Checked.forall₂_of_mapM hvals).length_eq] at arity
          exact absurd (hloops.1.arity i hi arguments _ hop) arity
        · cases hreact.symm.trans reaction
    · cases hreturns.symm.trans reaction
  | @returned _ reaction callers =>
    have hr' := h.returns_eq reaction
    have hcallers' : m'.callers = [] := by
      have hle := h.callers.length_le
      rw [callers] at hle
      exact length_eq_zero_iff.mp (Nat.le_zero.mp hle)
    exact ⟨_, advance_of_returns_nil hr' hcallers', rfl, h.printed, h.maxCallDepth⟩
  | noValue reaction callers resumed => exact absurd resumed (hm reaction callers)
  | faulted => exact hproper.elim

theorem simulates (hpq : p.Corresponds MayLoop q) :
    Simulates p q (fun _ => True) (Shortened p) (·.callers.length) where
  step _ _ h ha := by
    cases moves_of_running ha with
    | goesOn reaction =>
      obtain ⟨n', hn', hshort⟩ := h.goesOn (q := q) reaction
      exact Or.inr ⟨0, n', .single hn', hshort⟩
    | calls reaction found arity => exact Or.inr (h.calls hpq reaction found arity)
    | @returns _ s _ a reaction callers resumed =>
      rcases h.returns (q := q) reaction callers resumed with hstay | ⟨n', hn', hshort⟩
      · exact Or.inl hstay
      · exact Or.inr ⟨0, n', .single hn', hshort⟩
  stop _ hm h ha hproper := by
    obtain ⟨e', he', hm⟩ := h.ends hpq hm ha hproper
    exact ⟨0, _, e', .refl _, he', hm⟩

end Machine.Shortened

theorem sameFace_of_convert {f g : Procedure} (h : g = f ∨ g = f.convertTailCalls) : f.SameFace g := by
  have hsame : f.SameFace f.convertTailCalls := by
    rcases f.convertTailCalls_cases with h | h <;> rw [h]
    exacts [.refl f, f.sameFace_asLoop]
  rcases h with rfl | rfl
  exacts [.refl _, hsame]

/-- Making tail calls jumps is a right pass. -/
theorem Program.Preserves.of_convertTailCalls {p q : Program} (hp : p.Consistent)
    (hd : (p.procedures.map (·.symbol)).Nodup)
    (hpq : p.Corresponds (fun f g => g = f ∨ g = f.convertTailCalls) q) : p.Preserves q := by
  have hloops : p.Corresponds MayLoop q := by
    refine ⟨hpq.globals, hpq.literals, forall₂_of_mem hpq.procedures fun f hf g hfg => ?_⟩
    rcases hfg with rfl | rfl
    · exact Or.inl rfl
    · exact f.convertTailCalls_cases.imp_right (⟨(hp.procedures f hf).loopable (find?_of_mem hd hf), ·⟩)
  refine ⟨hloops.mono fun _ _ h => h.sameFace, ?_, fun {symbol args} hn ha => ?_⟩
  · refine hp.of_corresponds hpq (fun _ _ => sameFace_of_convert) fun f hf g hfg => ?_
    rcases hfg with rfl | rfl
    · exact hp.procedures _ hf
    · exact (hp.procedures f hf).convertTailCalls (find?_of_mem hd hf)
  · refine hloops.refines (fun _ _ h => h.sameFace.symbol) (fun _ _ h => h.sameFace.parameters)
      fun {f g} hf hg hfg hl hl' => ?_
    obtain ⟨k, _, b, hsteps, hlooped⟩ := Shortened.enters (q := q) hf hfg args
      q.initialWorld.entered []
    refine .of_start (Shortened.simulates hloops) hf hg hl hl' (fun hs => ⟨trivial, ?_⟩) hsteps ?_
    · exact (sound_of_steps hp.typed hn (mem_of_find?_eq_some hf) (ha f hf) hs).isAnswered hp.typed
    exact ⟨hpq.initialMemory, rfl, Nat.le_refl _, rfl, rfl, Or.inl hlooped, .nil⟩

end Retarget
