import Retarget.Proofs.Code.Consistent

/-!
# Well-formed programs

What passes and emitters rely on: the registers of a procedure are those of its table, its jumps stay inside it,
its operations join registers as their kinds ask for, and whatever it names is there.
-/
namespace Retarget

namespace Operation

/-- The registers that the operation joins have types that its kind allows. -/
def Shaped : Operation → Prop
  | .binary _ lhs rhs destination => lhs.type = destination.type ∧ rhs.type = destination.type
  | .compare comparison lhs rhs _ =>
    lhs.type = rhs.type ∧ (lhs.type.isPointer = true → comparison = .eq ∨ comparison = .ne)
  | .step _ register => register.type.isNumeric = true
  | .convert source target => source.type.isPointer = target.type.isPointer ∧ source.type ≠ target.type
  | .unknown _ => False
  | _ => True

/-- The function or the data that the operation names is part of the program. -/
def Linked (p : Program) : Operation → Prop
  | .call (.function symbol) _ _ => ∃ f, p.find? symbol = some f
  | .addressOf (.global module name) _ => ∃ g ∈ p.globals, g.module = module ∧ g.name = name
  | .addressOf (.literal index) _ => ∃ s ∈ p.literals, s.index = index
  | _ => True

end Operation

structure Procedure.WellFormed (p : Program) (f : Procedure) : Prop where
  numbered : f.registers.IsNumbered
  parameters : ∀ q ∈ f.parameters, q.register ∈ f.registers
  locals : ∀ l ∈ f.locals, l.register ∈ f.registers ∧ l.register.type = l.type
  mentions : ∀ i ∈ f.instructions, ∀ r ∈ i.operation.mentions, r ∈ f.registers
  labels : (f.instructions.filterMap (·.operation.labelName?)).Nodup
  jumps : ∀ i ∈ f.instructions, ∀ name, i.operation.jumpTarget? = some name →
    ∃ j ∈ f.instructions, j.operation = .label name
  returns : f.returnType = .void → ∃ i register, f.instructions.getLast? = some i ∧ i.operation = .ret register
  shaped : ∀ i ∈ f.instructions, i.operation.Shaped
  linked : ∀ i ∈ f.instructions, i.operation.Linked p

structure Program.WellFormed (p : Program) : Prop where
  procedures : ∀ f ∈ p.procedures, f.WellFormed p
  /-- Literals are numbered by their places. -/
  indices : ∀ (i : Nat) (s : StringLiteral), p.literals[i]? = some s → s.index = .natural i
  literals : (p.literals.map (·.value)).Nodup

end Retarget
