import Retarget.Lower.Draft

/-!
# Lowering expressions

Every expression gets a fresh register of its type and the instructions that compute it, operands from
left to right. Reading a variable copies its home register.
-/
namespace Retarget.Lower

def globalAddress (global : GlobalVariable) (pointee : Ty) (why : String) : Lower Register := do
  let address ← allocate (.pointer pointee)
  emit (.addressOf (.global global.module global.name) address) why
  return address

def elementAddress (ctx : Context) (name : String) (index : Lower Register)
    (site : Option Source.Location) : Lower (Register × Ty) := do
  let global ← findGlobal ctx name
  match global.type with
  | .array of _ =>
    let element ← resolveScalar ctx of s!"element of {name}" site
    let indexRegister ← index
    let base ← globalAddress global element s!"Base of {name}"
    let address ← allocate (.pointer element)
    emit (.arrayIndex base indexRegister address) s!"Address of {name}[{indexRegister.id}]"
    return (address, element)
  | _ => unsupported ctx s!"indexing {name}, which is not an array" site

def findDeclaration (ctx : Context) (name : String) : Lower (Nat × Source.Declaration) :=
  match ctx.module.functions.zipIdx.find? (·.1.name == name) with
  | some (declaration, place) => pure (place, declaration)
  | none => throw (.fault (.unresolvedFunction name))

/-- The symbol of an instance, which is asked for if it is new. -/
def requestInstance (ctx : Context) (place : Nat) (declaration : Source.Declaration)
    (typeArguments : List Ty) : Lower Symbol := do
  let concrete ← check (typeArguments.mapM (·.substitute ctx.bindings))
  let (result, cache) ← check ((← get).shared.cache.instantiate place declaration concrete)
  modify fun s => { s with shared := { s.shared with cache } }
  match result with
  | .ok found => return found.symbol
  | .error diagnostic => throw (.refused diagnostic)

def plainSymbol (ctx : Context) (declaration : Source.Declaration) (site : Option Source.Location) :
    Lower Symbol :=
  if declaration.typeParameters.isEmpty then pure ⟨ctx.module.name, declaration.name, []⟩
  else unsupported ctx s!"calling generic {declaration.name} without type arguments" site

def callFunction (ctx : Context) (symbol : Symbol) (arguments : Lower (List Register)) (type : Ty)
    (site : Option Source.Location) : Lower (Option Register) := do
  let registers ← arguments
  let returnType ← check (type.substitute ctx.bindings)
  let destination ←
    if returnType = .void then pure none
    else some <$> (resolveScalar ctx returnType "return value" site >>= allocate)
  let name ← check symbol.text
  emit (.call (.function symbol) registers destination) s!"Call {name}"
  return destination

/-- A call; only functions give a result. -/
def lowerCall (ctx : Context) (callee : Source.Callee) (count : Nat) (arguments : Lower (List Register))
    (type : Ty) (site : Option Source.Location) : Lower (Option Register) := do
  match callee with
  | .routine routine =>
    match routine.parameters? with
    | none => unsupported ctx s!"unknown runtime function {routine.name}" site
    | some parameters =>
      if parameters.length ≠ count then
        unsupported ctx s!"{routine.name} takes {parameters.length} arguments, got {count}" site
      let registers ← arguments
      emit (.call (.routine routine) registers none) s!"Call runtime {routine.name}"
      return none
  | .function name =>
    let (_, declaration) ← findDeclaration ctx name
    callFunction ctx (← plainSymbol ctx declaration site) arguments type site
  | .generic name typeArguments =>
    let (place, declaration) ← findDeclaration ctx name
    callFunction ctx (← requestInstance ctx place declaration typeArguments) arguments type site
  | .unknown node => throw (.fault (.unhandled node "lowerCall"))

def lowerBinary (ctx : Context) (sign : String) (operator : Operator) (type : Ty) (lhs rhs : Register)
    (site : Option Source.Location) : Lower Register := do
  if !type.isNumeric && !(type = .boolean && operator.isBitwise) then
    let text ← check type.text
    unsupported ctx s!"operator {sign} on {text}" site
  if lhs.type ≠ type || rhs.type ≠ type then
    let left ← check lhs.type.text
    let right ← check rhs.type.text
    unsupported ctx s!"operator {sign} mixing {left} and {right} without a conversion" site
  let destination ← allocate type
  emit (.binary operator lhs rhs destination) sign
  return destination

def lowerComparison (ctx : Context) (comparison : Comparison) (lhs rhs : Register)
    (site : Option Source.Location) : Lower Register := do
  if lhs.type ≠ rhs.type then
    let left ← check lhs.type.text
    let right ← check rhs.type.text
    unsupported ctx s!"comparing {left} with {right}" site
  if lhs.type.isPointer && comparison ≠ .eq && comparison ≠ .ne then
    unsupported ctx s!"ordering comparison {comparison.text} on pointers" site
  let destination ← allocate .boolean
  emit (.compare comparison lhs rhs destination) comparison.text
  return destination

def lowerConversion (ctx : Context) (source : Register) (type : Ty) (site : Option Source.Location) :
    Lower Register := do
  if source.type.isPointer != type.isPointer then
    let left ← check source.type.text
    let right ← check type.text
    unsupported ctx s!"conversion from {left} to {right}" site
  let target ← allocate type
  if source.type = type then
    emit (.move source target) "Conversion to the same type"
  else
    let left ← check source.type.text
    let right ← check type.text
    emit (.convert source target) s!"{left} to {right}"
  return target

mutual

def lowerExpression (ctx : Context) : Source.Expression → Lower Register
  | .number value type site => do
    let type ← resolveScalar ctx type "literal" site
    if !type.isNumeric then
      let text ← check type.text
      unsupported ctx s!"numeric literal of type {text}" site
    let destination ← allocate type
    let encoded ← check (encodeLiteral value type)
    emit (.loadImmediate encoded destination) s!"Literal {value.text}"
    return destination
  | .boolean value _ => do
    let destination ← allocate .boolean
    let (encoded, name) : Number × String := if value then (1, "true") else (0, "false")
    emit (.loadImmediate encoded destination) s!"Literal {name}"
    return destination
  | .string value _ => do
    let index ← intern value
    let destination ← allocate (.pointer .string)
    emit (.addressOf (.literal (.natural index)) destination) s!"String literal {Text.quote value}"
    return destination
  | .identifier name _ _ => do
    let home ← findVariable name
    let destination ← allocate home.type
    emit (.move home destination) s!"Read {name}"
    return destination
  | .global name _ site => do
    let global ← findGlobal ctx name
    let type ← resolveScalar ctx global.type s!"global {name}" site
    let address ← globalAddress global type s!"Address of {name}"
    let destination ← allocate type
    emit (.load address destination) s!"Read {name}"
    return destination
  | .binary sign left right type site => do
    match Operator.ofSymbol? sign with
    | none => unsupported ctx s!"operator {sign}" site
    | some operator =>
      let type ← resolveScalar ctx type s!"result of {sign}" site
      let lhs ← lowerExpression ctx left
      let rhs ← lowerExpression ctx right
      lowerBinary ctx sign operator type lhs rhs site
  | .comparison comparison left right site => do
    let lhs ← lowerExpression ctx left
    let rhs ← lowerExpression ctx right
    lowerComparison ctx comparison lhs rhs site
  | .not operand _ => do
    let source ← lowerExpression ctx operand
    let destination ← allocate .boolean
    emit (.testZero source false destination) "Logical not"
    return destination
  | .call callee arguments type site => do
    match ← lowerCall ctx callee arguments.length (lowerArguments ctx arguments) type site with
    | some register => return register
    | none => unsupported ctx "using the result of a call that returns nothing" site
  | .index array index _ site => do
    let (address, element) ← elementAddress ctx array (lowerExpression ctx index) site
    let destination ← allocate element
    emit (.load address destination) s!"Read {array}[]"
    return destination
  | .addressOf name _ _ => do
    let global ← findGlobal ctx name
    globalAddress global global.type s!"Address of {name}"
  | .dereference pointer type site => do
    let type ← resolveScalar ctx type "dereferenced value" site
    let address ← lowerExpression ctx pointer
    let destination ← allocate type
    emit (.load address destination) "Dereference"
    return destination
  | .convert operand type site => do
    let type ← resolveScalar ctx type "conversion target" site
    let source ← lowerExpression ctx operand
    lowerConversion ctx source type site
  | .ternary condition whenTrue whenFalse type site => do
    let type ← resolveScalar ctx type "conditional expression" site
    let result ← allocate type
    let elseLabel ← makeLabel "ternary_else"
    let endLabel ← makeLabel "ternary_end"
    let test ← lowerExpression ctx condition
    emit (.gotoIfFalse test elseLabel) "Ternary condition"
    let first ← lowerExpression ctx whenTrue
    emit (.move first result) "Ternary true value"
    emit (.goto endLabel) "Skip false value"
    emit (.label elseLabel) ""
    let second ← lowerExpression ctx whenFalse
    emit (.move second result) "Ternary false value"
    emit (.label endLabel) ""
    return result
  | .unknown node _ => unsupported ctx s!"expression {node}" none

def lowerArguments (ctx : Context) : List Source.Expression → Lower (List Register)
  | [] => return []
  | argument :: rest => do
    let register ← lowerExpression ctx argument
    return register :: (← lowerArguments ctx rest)

end

end Retarget.Lower
