import Retarget.Code.Program

/-!
# Peephole simplification

Local patterns over one or two neighbouring instructions. Simplification takes the first place where a
pattern matches, and there the first pattern that does, and goes on until none matches anywhere. Every step
removes at least one instruction, so a list is done after at most as many steps as it is long.
-/
namespace Retarget

namespace Peephole

inductive Pattern where
  /-- A register moved to itself. -/
  | selfMove
  /-- A move, and the move back. -/
  | copyBack
  /-- A constant loaded into a temporary that is moved on. -/
  | foldImmediateCopy
  /-- A step, and the opposite step. -/
  | cancelIncrementDecrement
  /-- A comparison with a constant zero. -/
  | compareWithZero
  /-- A test whether a difference is zero. -/
  | subtractThenTestZero
  /-- A result in a temporary that is moved on. -/
  | forwardDefinition
  /-- A copy that the next instruction reads. -/
  | propagateCopy
  /-- A jump to the label that follows. -/
  | jumpToNextLabel
  /-- Code behind a jump that no label makes reachable. -/
  | unreachableAfterJump
  /-- A label that nothing jumps to. -/
  | unreferencedLabel
deriving DecidableEq, Repr

namespace Pattern

def all : List Pattern :=
  [.selfMove, .copyBack, .foldImmediateCopy, .cancelIncrementDecrement, .compareWithZero,
    .subtractThenTestZero, .forwardDefinition, .propagateCopy, .jumpToNextLabel, .unreachableAfterJump,
    .unreferencedLabel]

def name : Pattern → String
  | .selfMove => "selfMove"
  | .copyBack => "copyBack"
  | .foldImmediateCopy => "foldImmediateCopy"
  | .cancelIncrementDecrement => "cancelIncrementDecrement"
  | .compareWithZero => "compareWithZero"
  | .subtractThenTestZero => "subtractThenTestZero"
  | .forwardDefinition => "forwardDefinition"
  | .propagateCopy => "propagateCopy"
  | .jumpToNextLabel => "jumpToNextLabel"
  | .unreachableAfterJump => "unreachableAfterJump"
  | .unreferencedLabel => "unreferencedLabel"

end Pattern

/-! ## Facts about the whole procedure -/

/-- What the patterns may ask about the code around them. -/
structure Facts where
  instructions : List Instruction
  parameters : List Numeral

namespace Facts

def readCount (facts : Facts) (r : Register) : Nat :=
  (facts.instructions.flatMap Instruction.reads).countP (·.same r)

def writeCount (facts : Facts) (r : Register) : Nat :=
  (facts.instructions.flatMap Instruction.writes).countP (·.same r)

/-- Whether the register is a temporary: read once, written once and no parameter. Only these may be
folded away. -/
def isSingleUse (facts : Facts) (r : Register) : Bool :=
  !facts.parameters.contains r.id && facts.readCount r == 1 && facts.writeCount r == 1

/-- Whether some jump goes to the label. A label without a name cannot be jumped to. -/
def isReferenced (facts : Facts) (label : String) : Bool :=
  label != "" && facts.instructions.any (·.operation.jumpTarget? == some label)

end Facts

/-! ## The patterns -/

/-- The register that an instruction does nothing else but define. -/
def plainDestination? : Operation → Option Register
  | .step _ _ => none
  | operation => operation.writes.head?

/-- How a comparison with zero reads as a test: whether it is negated. Only for values without a sign do
the orderings say anything about being zero. -/
def zeroTest? (comparison : Comparison) (zeroOnRight isUnsigned : Bool) : Option Bool :=
  match comparison with
  | .eq => some false
  | .ne => some true
  | .gt => if isUnsigned && zeroOnRight then some true else none
  | .le => if isUnsigned && zeroOnRight then some false else none
  | .lt => if isUnsigned && !zeroOnRight then some true else none
  | .ge => if isUnsigned && !zeroOnRight then some false else none
  | .other _ => none

/-- Whether a type's values can be tested for zero in place of a comparison; if so, whether they have no
sign. -/
def isUnsigned? : Ty → Option Bool
  | .integer _ signed => some !signed
  | .boolean => some true
  | _ => none

def Pattern.replaceOne? (facts : Facts) : Pattern → Instruction → Option (List Instruction)
  | .selfMove, ⟨.move source target, _⟩ => if source.same target then some [] else none
  | .unreferencedLabel, ⟨.label name, _⟩ => if facts.isReferenced name then none else some []
  | _, _ => none

def Pattern.replaceTwo? (facts : Facts) :
    Pattern → Instruction → Instruction → Option (List Instruction)
  | .copyBack, ⟨.move a b, why⟩, ⟨.move c d, _⟩ =>
    if a.same d && b.same c then some [⟨.move a b, why⟩] else none
  | .foldImmediateCopy, ⟨.loadImmediate value temporary, _⟩, ⟨.move source target, why⟩ =>
    if temporary.same source && facts.isSingleUse temporary && temporary.type = target.type then
      some [⟨.loadImmediate value target, why⟩]
    else none
  | .cancelIncrementDecrement, ⟨.step first a, _⟩, ⟨.step second b, _⟩ =>
    if first ≠ second && a.same b then some [] else none
  | .compareWithZero, ⟨.loadImmediate value zero, _⟩, ⟨.compare comparison lhs rhs destination, why⟩ =>
    let zeroOnRight := rhs.same zero
    if value.isZero && facts.isSingleUse zero && (zeroOnRight || lhs.same zero) then
      let source := if zeroOnRight then lhs else rhs
      (isUnsigned? source.type).bind fun isUnsigned =>
        (zeroTest? comparison zeroOnRight isUnsigned).map fun negated =>
          [⟨.testZero source negated destination, why⟩]
    else none
  | .subtractThenTestZero, ⟨.binary .subtract lhs rhs difference, _⟩,
      ⟨.testZero source negated destination, why⟩ =>
    if difference.same source && facts.isSingleUse difference then
      some [⟨.compare (if negated then .ne else .eq) lhs rhs destination, why⟩]
    else none
  | .forwardDefinition, ⟨definition, why⟩, ⟨.move source target, _⟩ =>
    match plainDestination? definition with
    | some temporary =>
      if temporary.same source && facts.isSingleUse temporary && temporary.type = target.type then
        some [⟨definition.mapWrites fun _ => target, why⟩]
      else none
    | none => none
  | .propagateCopy, ⟨.move _ _, _⟩, ⟨.step _ _, _⟩ => none
  | .propagateCopy, ⟨.move source temporary, _⟩, ⟨consumer, why⟩ =>
    if !source.same temporary && facts.isSingleUse temporary && temporary.type = source.type
        && consumer.reads.any (·.same temporary) then
      some [⟨consumer.mapReads fun r => if r.same temporary then source else r, why⟩]
    else none
  | .jumpToNextLabel, ⟨.goto target, _⟩, ⟨.label name, why⟩ =>
    if target = name then some [⟨.label name, why⟩] else none
  | .unreachableAfterJump, ⟨.goto target, why⟩, ⟨next, _⟩ =>
    if next.isLabel then none else some [⟨.goto target, why⟩]
  | .unreachableAfterJump, ⟨.ret register, why⟩, ⟨next, _⟩ =>
    if next.isLabel then none else some [⟨.ret register, why⟩]
  | _, _, _ => none

/-! ## Simplification -/

/-- The list with the pattern applied at its front. -/
def Pattern.simplifyFront? (facts : Facts) (pattern : Pattern) :
    List Instruction → Option (List Instruction)
  | [] => none
  | [first] => pattern.replaceOne? facts first
  | first :: second :: rest =>
    match pattern.replaceOne? facts first with
    | some replacement => some (replacement ++ second :: rest)
    | none => (pattern.replaceTwo? facts first second).map (· ++ rest)

/-- The first pattern that matches at the front of the list, and the list with it applied. -/
def simplifyFront? (facts : Facts) (instructions : List Instruction) :
    Option (Pattern × List Instruction) :=
  Pattern.all.findSome? fun pattern => (pattern.simplifyFront? facts instructions).map (pattern, ·)

def simplifyFirst? (facts : Facts) : List Instruction → Option (Pattern × List Instruction)
  | [] => none
  | first :: rest =>
    match simplifyFront? facts (first :: rest) with
    | some result => some result
    | none => (simplifyFirst? facts rest).map fun (pattern, rest) => (pattern, first :: rest)

def step? (parameters : List Numeral) (instructions : List Instruction) :
    Option (Pattern × List Instruction) :=
  simplifyFirst? ⟨instructions, parameters⟩ instructions

/-- Simplifies while something matches, `rounds` times at most; gives the patterns applied. -/
def simplify (parameters : List Numeral) : Nat → List Instruction → List Pattern × List Instruction
  | 0, instructions => ([], instructions)
  | rounds + 1, instructions =>
    match step? parameters instructions with
    | none => ([], instructions)
    | some (pattern, instructions) =>
      let (applied, instructions) := simplify parameters rounds instructions
      (pattern :: applied, instructions)

end Peephole

open Peephole

/-- The procedure without what the patterns take out of it, and the patterns in the order applied. -/
def Procedure.peepholeTrace (p : Procedure) : Checked (List Pattern × Procedure) := do
  p.instructions.forM (·.operation.known "reads")
  let (applied, instructions) := simplify p.parameterIds p.instructions.length p.instructions
  return (applied, { p with instructions })

def Procedure.peephole (p : Procedure) : Checked Procedure := return (← p.peepholeTrace).2

end Retarget
