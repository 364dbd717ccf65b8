import Retarget.Proofs.Optimize.Reflection

/-!
# Replacing a few neighbouring instructions

A rewrite puts new instructions in the place of a window of old ones and leaves all others alone. Away from
the window the two procedures run alike, as long as they agree on all registers but some dead ones, which
nothing outside the window reads. What remains to be shown of a rewrite concerns the window alone.
-/
namespace Retarget

open Activation List

/-- The second procedure has other instructions than the first in one window, and is the same otherwise. -/
structure Procedure.Replaces (f g : Procedure) (pre old new post : List Instruction) : Prop where
  nonempty : 0 < old.length
  before : f.instructions = pre ++ old ++ post
  after : g = { f with instructions := pre ++ new ++ post }

/-- Corresponding places of the two procedures, the window's start included but not its inside. -/
def Shifted (start old new : Nat) (k k' : Nat) : Prop :=
  k ≤ start ∧ k' = k ∨ start + old ≤ k ∧ k' + old = k + new

/-- The place is not one of the window. -/
def Outside (start old : Nat) (k : Nat) : Prop := k < start ∨ start + old ≤ k

variable {f g : Procedure} {pre old new post : List Instruction} {Dead : Numeral → Prop}

namespace Procedure.Replaces

variable {k k' : Nat}

section
variable (h : f.Replaces g pre old new post)
include h

theorem symbol : g.symbol = f.symbol := by rw [h.after]

theorem parameters : g.parameters = f.parameters := by rw [h.after]

theorem instructions : g.instructions = pre ++ new ++ post := by
  rw [h.after]

theorem mem_before (hi : i ∈ old) : i ∈ f.instructions := by
  rw [h.before]
  exact mem_append_left _ (mem_append_right _ hi)

/-- The instructions outside the window are the same. -/
theorem getElem?_eq (hs : Shifted pre.length old.length new.length k k')
    (ho : Outside pre.length old.length k) : g.instructions[k']? = f.instructions[k]? := by
  rw [h.instructions, h.before, append_assoc, append_assoc]
  have hpos := h.nonempty
  rcases hs with ⟨hk, rfl⟩ | ⟨hk, hk'⟩
  · have hlt : k' < pre.length := by
      rcases ho with ho | ho <;> omega
    rw [getElem?_append_left hlt, getElem?_append_left hlt]
  · rw [getElem?_append_right (by omega), getElem?_append_right (by omega),
      getElem?_append_right (by omega), getElem?_append_right (by omega)]
    congr 1
    omega

theorem shifted_succ (hs : Shifted pre.length old.length new.length k k') (ho : Outside pre.length old.length k) :
    Shifted pre.length old.length new.length (k + 1) (k' + 1) := by
  have hpos := h.nonempty
  rcases hs with ⟨hk, rfl⟩ | ⟨hk, hk'⟩
  · exact Or.inl ⟨by rcases ho with ho | ho <;> omega, rfl⟩
  · exact Or.inr ⟨by omega, by omega⟩

/-- A label outside the window is found at the corresponding place. -/
theorem labelPlace? (hold : ∀ i ∈ old, i.operation.labels name = false)
    (hnew : ∀ i ∈ new, i.operation.labels name = false) (hk : f.labelPlace? name = some k) :
    ∃ k', g.labelPlace? name = some k' ∧ Shifted pre.length old.length new.length k k' := by
  have hnone : ∀ {window : List Instruction}, (∀ i ∈ window, i.operation.labels name = false) →
      window.findIdx? (·.operation.labels name) = none := fun h => by
    rw [findIdx?_eq_none_iff]
    exact h
  rw [Procedure.labelPlace?, h.before, append_assoc, findIdx?_append, findIdx?_append,
    hnone hold] at hk
  rw [Procedure.labelPlace?, h.instructions, append_assoc, findIdx?_append, findIdx?_append,
    hnone hnew]
  cases hpre : pre.findIdx? (·.operation.labels name) with
  | some =>
    rw [hpre] at hk
    cases hk
    exact ⟨k, rfl, Or.inl ⟨Nat.le_of_lt (findIdx?_eq_some_iff_findIdx_eq.mp hpre).1, rfl⟩⟩
  | none =>
    rw [hpre] at hk
    cases hpost : post.findIdx? (·.operation.labels name) with
    | none =>
      rw [hpost] at hk
      cases hk
    | some i =>
      rw [hpost] at hk
      cases hk
      exact ⟨i + new.length + pre.length, rfl, Or.inr ⟨by dsimp only; omega, by dsimp only; omega⟩⟩

theorem next?_old {a : Activation} (hf : a.procedure = f)
    (hp : a.position = pre.length + k) (hk : k < old.length) : a.next? = old[k]? := by
  rw [Activation.next?, hf, hp, h.before, append_assoc, getElem?_append_right (Nat.le_add_right _ _),
    Nat.add_sub_cancel_left, getElem?_append_left hk]

theorem next?_new {b : Activation} (hg : b.procedure = g)
    (hp : b.position = pre.length + k) (hk : k < new.length) : b.next? = new[k]? := by
  rw [Activation.next?, hg, hp, h.instructions, append_assoc,
    getElem?_append_right (Nat.le_add_right _ _), Nat.add_sub_cancel_left, getElem?_append_left hk]

theorem next?_before (hpre : pre = pre' ++ [w]) {a : Activation}
    (hf : a.procedure = f) (hp : a.position + 1 = pre.length) : a.next? = some w := by
  have hlen : a.position = pre'.length := by
    rw [hpre, length_append, length_singleton] at hp
    omega
  rw [Activation.next?, hf, h.before, hpre, hlen, append_assoc, append_assoc,
    getElem?_append_right (Nat.le_refl _), Nat.sub_self]
  rfl

end

end Procedure.Replaces

/-! ## Activations away from the window -/

/-- The activations stand at corresponding places of the two procedures and agree on all registers but the
dead ones. -/
structure Aligned (f g : Procedure) (start old new : Nat) (Dead : Numeral → Prop) (a b : Activation) :
    Prop where
  left : a.procedure = f
  right : b.procedure = g
  place : Shifted start old new a.position b.position
  agree : ∀ id, ¬Dead id → b.registers.get? id = a.registers.get? id

/-- Outside the window no dead register is read, and no jump goes into it. -/
structure Isolated (f : Procedure) (pre old new : List Instruction) (Dead : Numeral → Prop) : Prop where
  reads : ∀ {k i}, Outside pre.length old.length k → f.instructions[k]? = some i →
    ∀ r ∈ i.operation.reads, ¬Dead r.id
  jumps : ∀ {k i name}, Outside pre.length old.length k → f.instructions[k]? = some i →
    i.operation.jumpTarget? = some name → ∀ x ∈ old ++ new, x.operation.labels name = false

namespace Aligned

variable {a b : Activation} {memory memory' : Memory} {start m n : Nat}

section
variable (h : Aligned f g start m n Dead a b)
include h

theorem get_eq (hr : f.Replaces g pre old new post) {r} (hd : ¬Dead r.id) :
    b.get r = a.get r := by
  simp only [Activation.get, h.agree r.id hd, h.left, h.right, hr.symbol]

theorem written (w : Option (Register × Option Value)) :
    Aligned f g start m n Dead (a.written w) (b.written w) where
  left := by rw [written_procedure, h.left]
  right := by rw [written_procedure, h.right]
  place := by
    rw [written_position, written_position]
    exact h.place
  agree id hd := by
    cases w with
    | none => exact h.agree id hd
    | some => rw [get?_written, get?_written, h.agree id hd]

theorem at_place (hs : Shifted start m n k k') :
    Aligned f g start m n Dead { a with position := k } { b with position := k' } :=
  ⟨h.left, h.right, hs, h.agree⟩

end

/-- Aligned activations go on to aligned ones from instructions with places behind them that correspond. -/
theorem goesTo (hr : f.Replaces g pre old new post) (hf : a.procedure = f) (hg : b.procedure = g)
    (hbehind : Shifted pre.length old.length new.length (a.position + 1) (b.position + 1))
    (hagree : ∀ id, ¬Dead id → b.registers.get? id = a.registers.get? id) {e : Effect} {position}
    (hjumps : ∀ {name}, e.target = some name → ∀ x ∈ old ++ new, x.operation.labels name = false)
    (hgo : a.procedure.GoesTo (a.position + 1) e.target position) :
    ∃ position', b.procedure.GoesTo (b.position + 1) e.target position' ∧
      Aligned f g pre.length old.length new.length Dead { a.written e.write with position }
        { b.written e.write with position := position' } := by
  have hnext : Aligned f g pre.length old.length new.length Dead a.tick b.tick := ⟨hf, hg, hbehind, hagree⟩
  have haligned : ∀ {position'}, Shifted pre.length old.length new.length position position' →
      Aligned f g pre.length old.length new.length Dead { a.written e.write with position }
        { b.written e.write with position := position' } := fun hs => by
    have hwritten := (hnext.written e.write).at_place hs
    rcases hw : e.write with _ | ⟨r, _ | v⟩ <;> rw [hw] at hwritten <;> exact hwritten
  cases ht : e.target with
  | none =>
    rw [ht] at hgo
    obtain rfl : position = a.position + 1 := hgo
    exact ⟨b.position + 1, rfl, haligned hbehind⟩
  | some =>
    rw [ht, hf] at hgo
    obtain ⟨position', hgo', hs⟩ := hr.labelPlace? (fun x hx => hjumps ht x (mem_append_left _ hx))
      (fun x hx => hjumps ht x (mem_append_right _ hx)) hgo
    exact ⟨position', hg ▸ hgo', haligned hs⟩

section outside
variable (hr : f.Replaces g pre old new post) (h : Aligned f g pre.length old.length new.length Dead a b)
  (ho : Outside pre.length old.length a.position)
include hr h ho

theorem next?_eq : b.next? = a.next? := by
  rw [Activation.next?, Activation.next?, h.left, h.right]
  exact hr.getElem?_eq h.place ho

/-- Outside the window both activations do the same. -/
theorem mirrors (hi : Isolated f pre old new Dead) {Frame : Memory → Activation → Activation → Prop}
    {rank : Activation → Nat} (hgoes : ∀ {next next' memory' units}, a.react memory = .goesOn next memory' units →
      Aligned f g pre.length old.length new.length Dead next next' → Frame memory' next next')
    (hcalls : ∀ {symbol values destination}, a.react memory = .calls symbol values a.tick destination →
      ∀ memory' value next', Aligned f g pre.length old.length new.length Dead
        (a.tick.written (destination.map (·, value))) next' →
      Frame memory' (a.tick.written (destination.map (·, value))) next') :
    Mirrors Frame rank memory a b := by
  cases hn : a.next? with
  | none => exact .of_past hn ((h.next?_eq hr ho).trans hn) (by rw [h.left, h.right, hr.symbol])
  | some i =>
    have hn' : f.instructions[a.position]? = some i := by
      rw [← h.left]
      exact hn
    have hbehind := hr.shifted_succ h.place ho
    refine .of_reflects hn ((h.next?_eq hr ho).trans hn) ?_ (fun {e position} hd hgo => ?_)
      fun ha memory' value => ?_
    · rw [Operation.outcome_congr fun r hmem => h.get_eq hr (hi.reads ho hn' r hmem)]
      exact Operation.reflects_refl _
    · obtain ⟨position', hgo', haligned⟩ := goesTo hr h.left h.right hbehind h.agree
        (fun ht => hi.jumps ho hn' (hd.jumpTarget ht)) hgo
      exact ⟨position', hgo', hgoes (react_of_does hn hd hgo) haligned⟩
    · refine hcalls ha memory' value _ (written ?_ _)
      exact ⟨h.left, h.right, hbehind, h.agree⟩

end outside

end Aligned

/-! ## Simulation of a rewrite -/

def Activation.remaining (a : Activation) : Nat := a.procedure.instructions.length - a.position

theorem Activation.remaining_lt {a b : Activation} (hn : a.next? = some i) (hf : b.procedure = a.procedure)
    (hlt : a.position < b.position) : b.remaining < a.remaining := by
  obtain ⟨hi, -⟩ := List.getElem?_eq_some_iff.mp hn
  rw [remaining, remaining, hf]
  omega

namespace Window

variable (f g : Procedure) (start old new : Nat) (Dead : Numeral → Prop) (Idle : Activation → Prop)
  (Inside : Memory → Activation → Activation → Prop)

/-- Activations at corresponding places, of which the window's start needs a condition of its own; or such
as are inside the window. -/
def Frame (memory : Memory) (a b : Activation) : Prop :=
  Aligned f g start old new Dead a b ∧ (a.position = start → Idle a) ∨ Inside memory a b

end Window

/-- What is to be shown of a rewrite: the condition at the window's start holds whenever it is reached, and
from there and from inside the window the procedures run alike. -/
structure Window (f g : Procedure) (pre old new post : List Instruction) (Good : Activation → Prop)
    (Dead : Numeral → Prop) (Idle : Activation → Prop) (Inside : Memory → Activation → Activation → Prop) :
    Prop where
  replaces : f.Replaces g pre old new post
  isolated : Isolated f pre old new Dead
  start : pre = [] → ∀ values, Idle (f.activation values)
  arrive : ∀ {a next : Activation} {memory memory' units}, a.procedure = f →
    a.react memory = .goesOn next memory' units → next.position = pre.length → Idle next
  resume : ∀ {a : Activation} {memory symbol values destination}, a.procedure = f →
    a.react memory = .calls symbol values a.tick destination → a.position + 1 = pre.length →
    ∀ value, Idle (a.tick.written (destination.map (·, value)))
  front : ∀ {memory a b}, Good a → Aligned f g pre.length old.length new.length Dead a b →
    a.position = pre.length → Idle a →
    Mirrors (Window.Frame f g pre.length old.length new.length Dead Idle Inside) Activation.remaining
      memory a b
  inside : ∀ {memory a b}, Good a → Inside memory a b →
    Mirrors (Window.Frame f g pre.length old.length new.length Dead Idle Inside) Activation.remaining
      memory a b

namespace Window

variable {Good : Activation → Prop} {Idle : Activation → Prop} {Inside : Memory → Activation → Activation → Prop}

/-- A rewrite that is right in its window makes a procedure that runs like the one it changes. -/
theorem simulation (W : Window f g pre old new post Good Dead Idle Inside) :
    FrameSimulation (fun f' g' => f' = f ∧ g' = g) Good
      (Frame f g pre.length old.length new.length Dead Idle Inside) remaining where
  symbol := by
    rintro _ _ ⟨rfl, rfl⟩
    exact W.replaces.symbol
  parameters := by
    rintro _ _ ⟨rfl, rfl⟩
    exact W.replaces.parameters
  start := by
    rintro _ _ ⟨rfl, rfl⟩ values _
    refine Or.inl ⟨⟨rfl, rfl, Or.inl ⟨Nat.zero_le _, rfl⟩, fun id _ => ?_⟩, fun h => ?_⟩
    · simp only [Procedure.activation, Procedure.parameterIds, W.replaces.parameters]
    · exact W.start (length_eq_zero_iff.mp h.symm) values
  mirrors {memory a b} hg hf := by
    rcases hf with ⟨hal, hidle⟩ | hin
    · by_cases ho : Outside pre.length old.length a.position
      · refine hal.mirrors W.replaces ho W.isolated
          (fun ha hnext => Or.inl ⟨hnext, W.arrive hal.left ha⟩) fun ha memory' value next' hnext => ?_
        refine Or.inl ⟨hnext, fun hp => W.resume hal.left ha ?_ value⟩
        rwa [written_position] at hp
      · -- aligned places are outside the window or its start
        have hstart : a.position = pre.length := by
          rcases hal.place with ⟨hk, -⟩ | ⟨hk, -⟩
          · exact Nat.le_antisymm hk (Nat.not_lt.mp fun hlt => ho (Or.inl hlt))
          · exact absurd (Or.inr hk) ho
        exact W.front hg hal hstart (hidle hstart)
    · exact W.inside hg hin

end Window

end Retarget
