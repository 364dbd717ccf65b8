import Retarget.Proofs.Meaning.Following

/-!
# Choices and loops

How machines go through the two ways in which lowering joins code. A choice is entered by its test and left behind
its last label; a loop comes back to its condition until the test fails. A machine that follows the condition and the
body of a loop, and keeps an invariant, follows the loop.
-/
namespace Retarget

open CodeTree List

open Source (Store Reason Eval Flow Locals)

/-! ## Code with its structure in procedures -/

def CodeTree.size (code : CodeTree) : Nat := code.operations.length

namespace CodeTree

@[simp] theorem size_empty : empty.size = 0 := rfl

@[simp] theorem size_plain (op : Operation) : (plain op).size = 1 := rfl

@[simp] theorem size_append (first second : CodeTree) : (first ++ second).size = first.size + second.size :=
  length_append

@[simp] theorem size_branch (test : Register) (elseLabel endLabel : String) (whenTrue whenFalse : CodeTree) :
    (branch test elseLabel endLabel whenTrue whenFalse).size = whenTrue.size + whenFalse.size + 4 := by
  simp only [size, operations, length_cons, length_append, length_nil]
  omega

@[simp] theorem size_loop (header exit : String) (condition : CodeTree) (test : Register) (body : CodeTree) :
    (loop header exit condition test body).size = condition.size + body.size + 4 := by
  simp only [size, operations, length_cons, length_append, length_nil]
  omega

end CodeTree

variable {p : Program} {fuel : Nat} {m : Machine} {store : Store} {f : Procedure} {callers : List Suspended}
  {place place' : Nat} {test : Register} {given : Option Value} {elseLabel endLabel header exit : String}
  {whenTrue whenFalse condition body : CodeTree}

namespace Procedure.Has

theorem at_place {operations} (h : f.Has place operations) (heq : place = place') :
    f.Has place' operations := heq ▸ h

section
variable {code code' code'' : CodeTree}

theorem first (h : f.Has place (code ++ code').operations) : f.Has place code.operations := left h

theorem second (h : f.Has place (code ++ code').operations) : f.Has (place + code.size) code'.operations := right h

theorem third (h : f.Has place (code ++ code' ++ code'').operations) :
    f.Has (place + code.size + code'.size) code''.operations :=
  h.second.at_place (by rw [size_append, Nat.add_assoc])

end

section
variable (h : f.Has place (branch test elseLabel endLabel whenTrue whenFalse).operations)
include h

theorem trueCode : f.Has (place + 1) whenTrue.operations := h.tail.left

/-- The jump over the other part, and the label of that part. -/
theorem between : ∃ rest, f.Has (place + 1 + whenTrue.size) (.goto endLabel :: .label elseLabel :: rest) :=
  ⟨_, h.tail.right⟩

theorem falseCode : f.Has (place + whenTrue.size + 3) whenFalse.operations :=
  h.tail.right.tail.tail.left.at_place (by show place + 1 + whenTrue.size + 1 + 1 = _; omega)

theorem branchEnd : f.Has (place + whenTrue.size + whenFalse.size + 3) [.label endLabel] :=
  h.tail.right.tail.tail.right.at_place
    (by show place + 1 + whenTrue.size + 1 + 1 + whenFalse.size = _; omega)

end

section
variable (h : f.Has place (loop header exit condition test body).operations)
include h

theorem conditionCode : f.Has (place + 1) condition.operations := h.tail.left

theorem exitTest : ∃ rest, f.Has (place + 1 + condition.size) (.gotoIfFalse test exit :: rest) := ⟨_, h.tail.right⟩

theorem bodyCode : f.Has (place + condition.size + 2) body.operations :=
  h.tail.right.tail.left.at_place (by show place + 1 + condition.size + 1 = _; omega)

theorem loopEnd : f.Has (place + condition.size + 2 + body.size) [.goto header, .label exit] :=
  h.tail.right.tail.right.at_place (by show place + 1 + condition.size + 1 + body.size = _; omega)

end

end Procedure.Has

namespace Machine

/-- The registers that the predicate tells hold what they held before. -/
def Keeps (P : Register → Prop) (before after : Assoc Numeral Value) : Prop :=
  ∀ r, P r → after.get? r.id = before.get? r.id

theorem Keeps.refl (P : Register → Prop) (registers : Assoc Numeral Value) : Keeps P registers registers :=
  fun _ _ => rfl

theorem Keeps.trans {P Q : Register → Prop} (hab : Keeps P a b) (hbc : Keeps Q b c) (hsub : ∀ r, P r → Q r) :
    Keeps P a c :=
  fun r hr => (hbc r (hsub r hr)).trans (hab r hr)

theorem Stands.at_place (h : m.Stands f callers place store) (heq : place = place') :
    m.Stands f callers place' store := heq ▸ h

section
variable (hlabels : (f.instructions.filterMap (·.operation.labelName?)).Nodup)
include hlabels

/-! ## Choices -/

section
variable (hhas : f.Has place (branch test elseLabel endLabel whenTrue whenFalse).operations)
include hhas

/-- The test leads into one of the parts. -/
theorem Stands.branches (hm : m.Stands f callers place store) (hgiven : m.active.registers.get? test.id = given) :
    m.Follows p strict fuel (fun x after n => after = store ∧
      n.Stands f callers (if x.isZero then place + whenTrue.size + 3 else place + 1) store ∧
      n.active.registers = m.active.registers) ((Eval.of (Source.demandNumber f.symbol given)).result store) := by
  obtain ⟨_, hbetween⟩ := hhas.between
  refine (hm.tests hhas (hbetween.tail.labelPlace? hlabels) hgiven).steps fun {x _ n} hn => ?_
  obtain ⟨rfl, hn, hregs⟩ := hn
  by_cases hx : x.isZero
  · rw [if_pos hx] at hn ⊢
    obtain ⟨n', hsteps, hn', hregs'⟩ := hn.passes hbetween.tail (p := p)
    exact ⟨1, n', hsteps, rfl, hn'.at_place (by omega), hregs'.trans hregs⟩
  · rw [if_neg hx] at hn ⊢
    exact ⟨0, n, .refl n, rfl, hn, hregs⟩

/-- Behind the first part the machine jumps over the other one. -/
theorem Stands.joins_true (hm : m.Stands f callers (place + 1 + whenTrue.size) store) :
    ∃ n, Steps p 2 m n ∧
      n.Stands f callers (place + (branch test elseLabel endLabel whenTrue whenFalse).size) store ∧
      n.active.registers = m.active.registers := by
  obtain ⟨_, hbetween⟩ := hhas.between
  obtain ⟨n, hsteps, hn, hregs⟩ := hm.jumps hbetween (hhas.branchEnd.labelPlace? hlabels) (p := p)
  obtain ⟨n', hsteps', hn', hregs'⟩ := hn.passes hhas.branchEnd (p := p)
  exact ⟨n', hsteps.trans hsteps', hn'.at_place (by simp only [size_branch]; omega),
    hregs'.trans hregs⟩

omit hlabels in
theorem Stands.joins_false (hm : m.Stands f callers (place + whenTrue.size + 3 + whenFalse.size) store) :
    ∃ n, Steps p 1 m n ∧
      n.Stands f callers (place + (branch test elseLabel endLabel whenTrue whenFalse).size) store ∧
      n.active.registers = m.active.registers := by
  obtain ⟨n, hsteps, hn, hregs⟩ := (hm.at_place (by omega)).passes hhas.branchEnd (p := p)
  exact ⟨n, hsteps, hn.at_place (by simp only [size_branch]; omega), hregs⟩

end

/-! ## Loops -/

section
variable (hhas : f.Has place (loop header exit condition test body).operations)
include hhas

/-- The test behind the condition leads into the body or out of the loop. -/
theorem Stands.checks (hm : m.Stands f callers (place + 1 + condition.size) store)
    (hgiven : m.active.registers.get? test.id = given) :
    m.Follows p strict fuel (fun x after n => after = store ∧
      n.Stands f callers (if x.isZero then place + (loop header exit condition test body).size
        else place + condition.size + 2) store ∧
      n.active.registers = m.active.registers) ((Eval.of (Source.demandNumber f.symbol given)).result store) := by
  obtain ⟨_, htest⟩ := hhas.exitTest
  refine (hm.tests htest (hhas.loopEnd.tail.labelPlace? hlabels) hgiven).steps fun {x _ n} hn => ?_
  obtain ⟨rfl, hn, hregs⟩ := hn
  by_cases hx : x.isZero
  · rw [if_pos hx] at hn ⊢
    obtain ⟨n', hsteps, hn', hregs'⟩ := hn.passes hhas.loopEnd.tail (p := p)
    exact ⟨1, n', hsteps, rfl, hn'.at_place (by simp only [size_loop]; omega), hregs'.trans hregs⟩
  · rw [if_neg hx] at hn ⊢
    exact ⟨0, n, .refl n, rfl, hn.at_place (by omega), hregs⟩

/-- Behind the body the machine goes back to the condition. -/
theorem Stands.repeats (hm : m.Stands f callers (place + condition.size + 2 + body.size) store) :
    ∃ n, Steps p 2 m n ∧ n.Stands f callers (place + 1) store ∧ n.active.registers = m.active.registers := by
  obtain ⟨n, hsteps, hn, hregs⟩ := hm.jumps hhas.loopEnd (hhas.labelPlace? hlabels) (p := p)
  obtain ⟨n', hsteps', hn', hregs'⟩ := hn.passes hhas (p := p)
  exact ⟨n', hsteps.trans hsteps', hn', hregs'.trans hregs⟩

end

end

/-- The machine is where a statement leads: at a place, with registers for the variables, or about to return. -/
def Arrives (f : Procedure) (callers : List Suspended) (place : Nat) (Q : Locals → Assoc Numeral Value → Prop) :
    Flow → Store → Machine → Prop
  | .goesOn locals, store, n => n.Stands f callers place store ∧ Q locals n.active.registers
  | .returns value, store, n => n.Returning callers value store

variable {I J Q : Locals → Assoc Numeral Value → Prop} {holds : Locals → Eval Bool} {round : Locals → Eval Flow}

/-- A loop is followed if its condition and its body are, and if the body brings back what the condition starts
from. Every round takes a step at least, so that the fuel of the loop is that of the run. -/
theorem Stands.loops (hlabels : (f.instructions.filterMap (·.operation.labelName?)).Nodup)
    (hhas : f.Has place (loop header exit condition test body).operations)
    (hholds : ∀ {m : Machine} {locals store}, m.Stands f callers (place + 1) store → I locals m.active.registers →
      m.Follows p strict fuel (fun b after n => if b then n.Stands f callers (place + condition.size + 2) after ∧
          J locals n.active.registers
        else n.Stands f callers (place + (loop header exit condition test body).size) after ∧
          Q locals n.active.registers) ((holds locals).result store))
    (hround : ∀ {m : Machine} {locals store}, m.Stands f callers (place + condition.size + 2) store →
      J locals m.active.registers →
      m.Follows p strict fuel (Arrives f callers (place + condition.size + 2 + body.size) I)
        ((round locals).result store))
    {rounds} (hle : rounds ≤ fuel) {locals} (hm : m.Stands f callers (place + 1) store)
    (hI : I locals m.active.registers) :
    m.Follows p strict rounds (Arrives f callers (place + (loop header exit condition test body).size) Q)
      ((Eval.loop holds round rounds locals).result store) := by
  induction rounds generalizing m locals store with
  | zero => exact fun _ => Or.inl ⟨rfl, 0, m, Nat.le_refl 0, .refl m⟩
  | succ _ ih =>
    rw [Eval.loop]
    refine ((hholds hm hI).le hle).bind fun {b after n} hn => ?_
    cases b with
    | false => exact .done hn
    | true =>
      refine ((hround hn.1 hn.2).le hle).bind fun {flow after n} hn => ?_
      cases flow with
      | returns => exact .done hn
      | goesOn =>
        obtain ⟨_, hsteps, hn', hregs⟩ := hn.1.repeats hlabels hhas (p := p)
        exact .after hsteps ((ih (by omega) hn' (hregs ▸ hn.2)).le (by omega))

end Machine

end Retarget
