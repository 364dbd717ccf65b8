import Retarget.Emit.C99.Expression
import Retarget.Emit.Line
import Retarget.Emit.Session

/-!
# C files

A file defines the types and the printing routines it uses, then global variables, string literals and
functions. Every virtual register is a variable of its function.
-/
namespace Retarget.C99

abbrev Code := List (Line String)

/-- The name of a global variable; there are no dots in names. -/
def globalText (module name : String) : String := module ++ "_" ++ name

/-! ## Functions -/

/-- The address of data; arrays stand for their own address. -/
def addressText (program : Program) : DataSymbol → Checked String
  | .literal index => .ok ("&" ++ literalName index)
  | .global module name =>
    match program.globals.find? fun g => g.module = module && g.name = name with
    | none => .error (.missingGlobal name)
    | some g =>
      match g.type with
      | .array _ _ => .ok (globalText module name)
      | _ => .ok ("&" ++ globalText module name)

def assignment (r : Register) (value : String) : Line String := .plain s!"{r.text} = {value};"

def step (direction : Direction) (r : Register) : Checked Code := do
  if !r.type.isNumeric then
    throw (.stepOf direction.name (← r.type.shortName))
  let sign := match direction with
    | .increment => "+"
    | .decrement => "-"
  return [assignment r (← wrapTo r.type s!"(u32){r.text} {sign} {r.type.one}u")]

def call (target : CallTarget) (arguments : List Register) (destination : Option Register) :
    Checked Code := do
  let value := (← target.text) ++ "(" ++ Text.join ", " (arguments.map Register.text) ++ ")"
  match destination with
  | some r => return [assignment r value]
  | none => return [.plain s!"{value};"]

def select (program : Program) : Operation → Checked Code
  | .loadImmediate value destination => return [assignment destination value.text]
  | .move source target => return [assignment target source.text]
  | .binary operator lhs rhs destination => do
    return [assignment destination (← binaryOperation operator destination.type lhs.text rhs.text)]
  | .compare comparison lhs rhs destination =>
    return [assignment destination s!"{lhs.text} {comparison.text} {rhs.text}"]
  | .testZero source negated destination =>
    let sign := if negated then "!=" else "=="
    return [assignment destination s!"{source.text} {sign} 0"]
  | .convert source target => do
    return [assignment target (← conversion source.type target.type source.text)]
  | .step direction r => step direction r
  | .label name => return [.raw s!"{name}:;"]
  | .goto name => return [.plain s!"goto {name};"]
  | .gotoIfFalse condition name => return [.plain s!"if (!{condition.text}) goto {name};"]
  | .call target arguments destination => call target arguments destination
  | .ret (some r) => return [.plain s!"return {r.text};"]
  | .ret none => return [.plain "return;"]
  | .addressOf symbol destination => do
    return [assignment destination (← addressText program symbol)]
  | .arrayIndex base index destination =>
    return [assignment destination s!"{base.text} + {index.text}"]
  | .load address destination => return [assignment destination s!"*{address.text}"]
  | .store address value => return [.plain s!"*{address.text} = {value.text};"]
  | .unknown node => .error (.unhandled node "statementToC")

def signature (p : Procedure) (parameterName : Parameter → String) : Checked String := do
  let parameters ← p.parameters.mapM fun q => do
    return (← typeText q.register.type) ++ " " ++ parameterName q
  let returnType ← typeText p.returnType
  let list := if parameters.isEmpty then "void" else Text.join ", " parameters
  return returnType ++ " " ++ (← p.symbol.text) ++ "(" ++ list ++ ")"

def prototype (p : Procedure) : Checked String := do
  return (← signature p (·.name)) ++ ";"

def procedureCode (program : Program) (p : Procedure) : Checked Code := do
  let declarations ← p.localRegisters.mapM fun r => do
    return Line.plain ((← typeText r.type) ++ " " ++ r.text ++ ";")
  let body ← p.instructions.mapM fun i => do
    return Line.withWhy i.why (← select program i.operation)
  let head ← signature p (·.register.text)
  return [.raw (head ++ " \x7b")] ++ declarations ++ body.flatten ++ [.raw "\x7d"]

/-! ## Data -/

def initializerText : Option Initializer → String
  | none => ""
  | some (.list values) => " = \x7b" ++ Text.join ", " (values.map Number.text) ++ "\x7d"
  | some (.scalar value) => " = " ++ value.text

def globalDefinition (g : GlobalVariable) : Checked String := do
  let name := globalText g.module g.name
  let value := initializerText g.initializer
  match g.type with
  | .array of length =>
    return "static " ++ (← typeText of) ++ " " ++ name ++ "[" ++ length.text ++ "]" ++ value ++ ";"
  | type => return "static " ++ (← typeText type) ++ " " ++ name ++ value ++ ";"

/-- A literal's data, with a zero at its end, and its length. -/
def literalDefinition (s : StringLiteral) : String :=
  let units := (Text.firstUnits s.value).map (·.toNat.repr) ++ ["0"]
  "static const u8 " ++ s.name ++ "_data[] = \x7b" ++ Text.join ", " units ++ "\x7d;\n"
    ++ "static const String " ++ s.name ++ " = \x7b" ++ (Text.length s.value).repr ++ ", " ++ s.name
    ++ "_data\x7d;"

/-! ## Files -/

def printNumber (routine type format cast : String) : String :=
  s!"static void {routine}({type} v) \x7b printf(\"%{format}\", ({cast})v); \x7d"

def routineDefinition (routine : Routine) : String :=
  let unsigned (type : String) := printNumber routine.name type "lu" "unsigned long"
  let signed (type : String) := printNumber routine.name type "ld" "long"
  match routine with
  | .printChar => "static void print_char(u8 c) \x7b putchar(c); \x7d"
  | .printU8 => unsigned "u8"
  | .printU16 => unsigned "u16"
  | .printU24 => unsigned "u24"
  | .printU32 => unsigned "u32"
  | .printI8 => signed "i8"
  | .printI16 => signed "i16"
  | .printI24 => signed "i24"
  | .printI32 => signed "i32"
  | .printBool => "static void print_bool(u8 v) \x7b fputs(v ? \"true\" : \"false\", stdout); \x7d"
  | .printNewline => "static void print_newline(void) \x7b putchar('\\n'); \x7d"
  | .printString =>
    "static void print_string(const String *s) \x7b fwrite(s->data, 1, s->len, stdout); \x7d"
  | .other _ => ""

def typeDefinitions : List String :=
  ["#include <stdint.h>",
    "#include <stdio.h>",
    "",
    "typedef uint8_t u8;",
    "typedef uint16_t u16;",
    "typedef uint32_t u24;",
    "typedef uint32_t u32;",
    "typedef int8_t i8;",
    "typedef int16_t i16;",
    "typedef int32_t i24;",
    "typedef int32_t i32;",
    "",
    "// Fixed point values are stored scaled by 2^shift",
    "typedef int16_t f8_8;",
    "typedef int8_t f_8;",
    "typedef int16_t f_16;",
    "typedef int32_t f16_8;",
    "typedef int32_t f8_16;",
    "",
    "#define WRAP_U24(x) ((u24)((u32)(x) & 0xFFFFFFu))",
    "#define WRAP_I24(x) ((i24)((u32)(x) << 8) >> 8)",
    "",
    "typedef struct \x7b",
    "    u16 len;",
    "    const u8 *data;",
    "\x7d String;",
    ""]

def prologue (module : String) : String :=
  let description := Target.c99.descriptor.description
  Text.join "\n" (s!"// Module {module}, generated for {description}"
    :: typeDefinitions ++ Routine.all.map routineDefinition)

def isMain (p : Procedure) : Bool :=
  p.symbol.name = "main" && p.symbol.mangling.isEmpty && p.parameters.isEmpty

def mainWrapper (program : Program) : List String :=
  if program.procedures.any isMain then
    ["int main(void) \x7b\n    " ++ program.module ++ "_main();\n    return 0;\n\x7d"]
  else []

def emit (program : Program) (comments : Bool) : Checked (Outcome String) := do
  let emitted ← Emit.each .c99 program.procedures fun p => do
    let code ← Emit.check (procedureCode program p)
    Emit.check (Line.listText id Target.c99.descriptor.commentPrefix comments code)
  match emitted with
  | .error errors => return .error errors
  | .ok (procedures, _) =>
    let globals ← program.globals.mapM globalDefinition
    let prototypes ← program.procedures.mapM prototype
    return .ok (Text.join "\n\n" ([prologue program.module, "// Globals"] ++ globals
      ++ ["// String literals"] ++ program.literals.map literalDefinition
      ++ ["// Function declarations"] ++ prototypes ++ procedures ++ mainWrapper program) ++ "\n")

end Retarget.C99
