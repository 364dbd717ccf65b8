import Retarget.Lower.Expression

/-!
# Lowering statements

Conditionals and loops become labels and jumps; a conditional without an else part still gets both of
its labels. A name declared in a block is gone at the block's end.
-/
namespace Retarget.Lower

def declareVariable (ctx : Context) (name : String) (type : Ty) (site : Option Source.Location) :
    Lower Register := do
  let scalar ← resolveScalar ctx type s!"local {name}" site
  let register ← allocate scalar
  bind name register
  modifyDraft fun d => { d with locals := d.locals ++ [⟨name, scalar, register⟩] }
  return register

/-- Assigns a value to what can be assigned to. An address is computed before the value. -/
def lowerAssignment (ctx : Context) (target : Source.Assignee) (value : Source.Expression)
    (site : Option Source.Location) : Lower Unit := do
  match target with
  | .variable name =>
    let register ← lowerExpression ctx value
    let home ← findVariable name
    emit (.move register home) s!"Assign {name}"
  | .global name =>
    let global ← findGlobal ctx name
    let type ← resolveScalar ctx global.type s!"global {name}" site
    let register ← lowerExpression ctx value
    let address ← globalAddress global type s!"Address of {name}"
    emit (.store address register) s!"Assign {name}"
  | .index array index =>
    let (address, _) ← elementAddress ctx array (lowerExpression ctx index) site
    let register ← lowerExpression ctx value
    emit (.store address register) s!"Assign {array}[]"
  | .dereference pointer =>
    let address ← lowerExpression ctx pointer
    let register ← lowerExpression ctx value
    emit (.store address register) "Assign through pointer"
  | .unknown node => throw (.fault (.unhandled node "assignment target"))

def lowerStep (ctx : Context) (direction : Direction) (name : String) (site : Option Source.Location) :
    Lower Unit := do
  let register ← findVariable name
  if !register.type.isNumeric then
    let text ← check register.type.text
    unsupported ctx s!"{direction.name} of {text}" site
  let sign := match direction with
    | .increment => "++"
    | .decrement => "--"
  emit (.step direction register) s!"{name}{sign}"

/-- The head of a counting loop: both bounds are computed once, then the counter is compared with the
limit before every round. Gives the counter and the labels of head and exit. -/
def lowerForHead (ctx : Context) (name : String) (type : Ty) (first limit : Source.Expression)
    (site : Option Source.Location) : Lower (Register × String × String) := do
  let start ← lowerExpression ctx first
  let bound ← lowerExpression ctx limit
  let counter ← declareVariable ctx name type site
  if !counter.type.isNumeric || bound.type ≠ counter.type then
    let text ← check counter.type.text
    unsupported ctx s!"for loop over {text}" site
  emit (.move start counter) s!"Initialize {name}"
  let headerLabel ← makeLabel "for"
  let exitLabel ← makeLabel "end_for"
  emit (.label headerLabel) ""
  let current ← allocate counter.type
  emit (.move counter current) s!"Read {name}"
  let condition ← allocate .boolean
  emit (.compare .lt current bound condition) s!"{name} < limit"
  emit (.gotoIfFalse condition exitLabel) "Loop condition"
  return (counter, headerLabel, exitLabel)

mutual

def lowerStatement (ctx : Context) : Source.Statement → Lower Unit
  | .declaration name type (some initializer) site => do
    let value ← lowerExpression ctx initializer
    let home ← declareVariable ctx name type site
    emit (.move value home) s!"Initialize {name}"
  | .declaration name type none site => do
    let home ← declareVariable ctx name type site
    emit (.loadImmediate 0 home) s!"Zero {name}"
  | .assignment target value site => lowerAssignment ctx target value site
  | .increment name site => lowerStep ctx .increment name site
  | .decrement name site => lowerStep ctx .decrement name site
  | .expression (.call callee arguments type site) _ => do
    let _ ← lowerCall ctx callee arguments.length (lowerArguments ctx arguments) type site
  | .expression value _ => do
    let _ ← lowerExpression ctx value
  | .ret (some value) _ => do
    let register ← lowerExpression ctx value
    emit (.ret (some register)) "Return value"
  | .ret none _ => emit (.ret none) "Return"
  | .conditional condition whenTrue whenFalse _ => do
    let elseLabel ← makeLabel "else"
    let endLabel ← makeLabel "end_if"
    let test ← lowerExpression ctx condition
    emit (.gotoIfFalse test elseLabel) "If condition"
    inScope (lowerStatements ctx whenTrue)
    emit (.goto endLabel) "End of then block"
    emit (.label elseLabel) ""
    match whenFalse with
    | some statements => inScope (lowerStatements ctx statements)
    | none => pure ()
    emit (.label endLabel) ""
  | .whileLoop condition body _ => do
    let headerLabel ← makeLabel "while"
    let exitLabel ← makeLabel "end_while"
    emit (.label headerLabel) ""
    let test ← lowerExpression ctx condition
    emit (.gotoIfFalse test exitLabel) "Loop condition"
    inScope (lowerStatements ctx body)
    emit (.goto headerLabel) "Loop"
    emit (.label exitLabel) ""
  | .forLoop name type first limit body site =>
    inScope do
      let (counter, headerLabel, exitLabel) ← lowerForHead ctx name type first limit site
      inScope (lowerStatements ctx body)
      emit (.step .increment counter) s!"{name}++"
      emit (.goto headerLabel) "Loop"
      emit (.label exitLabel) ""
  | .unknown node => unsupported ctx s!"statement {node}" none

def lowerStatements (ctx : Context) : List Source.Statement → Lower Unit
  | [] => pure ()
  | statement :: rest => do
    lowerStatement ctx statement
    lowerStatements ctx rest

end

end Retarget.Lower
