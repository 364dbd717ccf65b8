import Retarget.Assoc
import Retarget.Fault
import Retarget.Json

/-!
# Types

The types of the language, their names, and the substitution of type parameters. Only generic
declarations mention type parameters; everything that is lowered has none.
-/
namespace Retarget

/-- Encodings of fixed-point numbers: how many bits stand before and after the point. -/
inductive Encoding where
  | f8x8
  | fx8
  | fx16
  | f16x8
  | f8x16
deriving DecidableEq, Repr, Inhabited

namespace Encoding

def all : List Encoding := [.f8x8, .fx8, .fx16, .f16x8, .f8x16]

def text : Encoding → String
  | .f8x8 => "f8.8"
  | .fx8 => "f.8"
  | .fx16 => "f.16"
  | .f16x8 => "f16.8"
  | .f8x16 => "f8.16"

def shortName : Encoding → String
  | .f8x8 => "f8_8"
  | .fx8 => "f_8"
  | .fx16 => "f_16"
  | .f16x8 => "f16_8"
  | .f8x16 => "f8_16"

def ofText? (text : String) : Option Encoding := all.find? (·.text == text)

def storageBits : Encoding → Nat
  | .f8x8 => 16
  | .fx8 => 8
  | .fx16 => 16
  | .f16x8 => 32
  | .f8x16 => 32

def usedBits : Encoding → Nat
  | .f8x8 => 16
  | .fx8 => 8
  | .fx16 => 16
  | .f16x8 => 24
  | .f8x16 => 24

def shift : Encoding → Nat
  | .f8x8 => 8
  | .fx8 => 8
  | .fx16 => 16
  | .f16x8 => 8
  | .f8x16 => 16

end Encoding

inductive Ty where
  | integer (bits : Nat) (signed : Bool)
  | fixed (encoding : Encoding)
  | boolean
  | void
  /-- A length and a pointer to bytes; only ever handled through pointers. -/
  | string
  | pointer (inner : Ty)
  | array (of : Ty) (length : Numeral)
  | parameter (name : String)
  /-- A type of no known kind, as the document it is. -/
  | unknown (node : Json)
deriving DecidableEq, Repr, Inhabited

namespace Ty

def u8 : Ty := .integer 8 false
def u16 : Ty := .integer 16 false
def u24 : Ty := .integer 24 false
def u32 : Ty := .integer 32 false
def i8 : Ty := .integer 8 true
def i16 : Ty := .integer 16 true
def i24 : Ty := .integer 24 true
def i32 : Ty := .integer 32 true

/-! ## Kinds -/

def isNumeric : Ty → Bool
  | .integer _ _ | .fixed _ => true
  | _ => false

def isPointer : Ty → Bool
  | .pointer _ => true
  | _ => false

/-- Whether a value of the type fits in a register. -/
def isScalar : Ty → Bool
  | .integer _ _ | .fixed _ | .boolean | .pointer _ => true
  | _ => false

/-! ## Texts -/

/-- The type as a JSON document, members in alphabetical order. -/
def json : Ty → Json
  | .integer bits signed =>
    .object [("bits", .number (.ofNat bits)), ("kind", .string "Integer"), ("signed", .bool signed)]
  | .fixed encoding => .object [("encoding", .string encoding.text), ("kind", .string "FixedPoint")]
  | .boolean => .object [("kind", .string "Boolean")]
  | .void => .object [("kind", .string "Void")]
  | .string => .object [("kind", .string "String")]
  | .pointer inner => .object [("kind", .string "Pointer"), ("to", json inner)]
  | .array of length =>
    .object [("kind", .string "Array"), ("length", .number length.value), ("of", json of)]
  | .parameter name => .object [("kind", .string "TypeParameter"), ("name", .string name)]
  | .unknown node => node

def unhandled (type : Ty) (place : String) : Fault := .unhandled type.json.compact place

/-- The canonical name used in mangled symbols: `u8`, `i24`, `f8_8`, `p_u8`, `a10_u16`. -/
def shortName : Ty → Checked String
  | .integer bits signed => .ok ((if signed then "i" else "u") ++ bits.repr)
  | .fixed encoding => .ok encoding.shortName
  | .boolean => .ok "bool"
  | .void => .ok "void"
  | .string => .ok "String"
  | .pointer inner => do return "p_" ++ (← shortName inner)
  | .array of length => do return "a" ++ length.text ++ "_" ++ (← shortName of)
  | .parameter name => .error (.noShortName name)
  | .unknown node => .error (.unhandled node.compact "shortName")

/-- The type as it is written in messages: `*u8`, `[10]u16`, `f8.8`. -/
def text : Ty → Checked String
  | .pointer inner => do return "*" ++ (← text inner)
  | .array of length => do return "[" ++ length.text ++ "]" ++ (← text of)
  | .parameter name => .ok name
  | .fixed encoding => .ok encoding.text
  | type => shortName type

def listText (types : List Ty) : Checked String := do
  return Text.join ", " (← types.mapM text)

/-! ## Type parameters -/

def substitute (bindings : Assoc String Ty) : Ty → Checked Ty
  | .parameter name =>
    match bindings.get? name with
    | some bound => .ok bound
    | none => .error (.unboundParameter name)
  | .pointer inner => do return .pointer (← substitute bindings inner)
  | .array of length => do return .array (← substitute bindings of) length
  | type => .ok type

def mentions (parameter : String) : Ty → Bool
  | .parameter name => name == parameter
  | .pointer inner => mentions parameter inner
  | .array of _ => mentions parameter of
  | _ => false

/-- How many pointers and arrays are nested in the type. -/
def nestingDepth : Ty → Nat
  | .pointer inner => 1 + nestingDepth inner
  | .array of _ => 1 + nestingDepth of
  | _ => 0

def pointee : Ty → Checked Ty
  | .pointer inner => .ok inner
  | type => do throw (.expectedPointer (← shortName type))

end Ty

end Retarget
