import Retarget.Inherited
import Retarget.Ty.Basic

/-!
# Operators, comparisons and support routines

The words of the source language and of the intermediate code. Every kind of word has a case for one
that is not known, so that the stage which cannot handle it can say so.
-/
namespace Retarget

/-! ## Binary operators -/

inductive Operator where
  | add
  | subtract
  | multiply
  | divide
  | modulo
  | and
  | or
  | xor
  | shiftLeft
  | shiftRight
  /-- What the table of operators inherits. -/
  | inherited (entry : Inherited)
  | other (name : String)
deriving DecidableEq, Repr

namespace Operator

def all : List Operator :=
  [.add, .subtract, .multiply, .divide, .modulo, .and, .or, .xor, .shiftLeft, .shiftRight]

def name : Operator → String
  | .add => "add"
  | .subtract => "subtract"
  | .multiply => "multiply"
  | .divide => "divide"
  | .modulo => "modulo"
  | .and => "and"
  | .or => "or"
  | .xor => "xor"
  | .shiftLeft => "shiftLeft"
  | .shiftRight => "shiftRight"
  | .inherited entry => entry.text
  | .other name => name

def json : Operator → String
  | .inherited entry => entry.json
  | operator => Text.quote operator.name

/-- What a table that does not list the operator has at its name all the same. -/
def stray? : Operator → Option String
  | .other name => (Inherited.find? name).map Inherited.text
  | _ => none

/-- The operator's sign in source texts; a name that is not known has none, or what the table of signs
inherits. -/
def symbol : Operator → String
  | .add => "+"
  | .subtract => "-"
  | .multiply => "*"
  | .divide => "/"
  | .modulo => "%"
  | .and => "&"
  | .or => "|"
  | .xor => "^"
  | .shiftLeft => "<<"
  | .shiftRight => ">>"
  | .inherited _ => "undefined"
  | .other name => (other name).stray?.getD "undefined"

def ofName (name : String) : Operator := (all.find? (·.name == name)).getD (.other name)

/-- The operator that the table has for a sign, listed or inherited. -/
def ofSymbol? (symbol : String) : Option Operator :=
  all.find? (·.symbol == symbol) <|> (Inherited.find? symbol).map .inherited

def isBitwise : Operator → Bool
  | .and | .or | .xor => true
  | _ => false

end Operator

/-! ## Comparisons -/

inductive Comparison where
  | eq
  | ne
  | lt
  | le
  | gt
  | ge
  | other (text : String)
deriving DecidableEq, Repr

namespace Comparison

def all : List Comparison := [.eq, .ne, .lt, .le, .gt, .ge]

def text : Comparison → String
  | .eq => "=="
  | .ne => "!="
  | .lt => "<"
  | .le => "<="
  | .gt => ">"
  | .ge => ">="
  | .other text => text

def ofText (text : String) : Comparison := (all.find? (·.text == text)).getD (.other text)

/-- The fault of a comparison that has no place where it was met. -/
def unhandled (comparison : Comparison) (place : String) : Fault :=
  .unhandled (Text.quote comparison.text) place

end Comparison

/-! ## Support routines -/

/-- Printing routines that every target links an implementation of. -/
inductive Routine where
  | printChar
  | printU8
  | printU16
  | printU24
  | printU32
  | printI8
  | printI16
  | printI24
  | printI32
  | printBool
  | printNewline
  | printString
  | other (name : String)
deriving DecidableEq, Repr

namespace Routine

def all : List Routine :=
  [.printChar, .printU8, .printU16, .printU24, .printU32, .printI8, .printI16, .printI24, .printI32,
    .printBool, .printNewline, .printString]

def name : Routine → String
  | .printChar => "print_char"
  | .printU8 => "print_u8"
  | .printU16 => "print_u16"
  | .printU24 => "print_u24"
  | .printU32 => "print_u32"
  | .printI8 => "print_i8"
  | .printI16 => "print_i16"
  | .printI24 => "print_i24"
  | .printI32 => "print_i32"
  | .printBool => "print_bool"
  | .printNewline => "print_newline"
  | .printString => "print_string"
  | .other name => name

def ofName (name : String) : Routine := (all.find? (·.name == name)).getD (.other name)

def parameters? : Routine → Option (List Ty)
  | .printChar => some [.u8]
  | .printU8 => some [.u8]
  | .printU16 => some [.u16]
  | .printU24 => some [.u24]
  | .printU32 => some [.u32]
  | .printI8 => some [.i8]
  | .printI16 => some [.i16]
  | .printI24 => some [.i24]
  | .printI32 => some [.i32]
  | .printBool => some [.boolean]
  | .printNewline => some []
  | .printString => some [.pointer .string]
  | .other _ => none

end Routine

end Retarget
