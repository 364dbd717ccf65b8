import Retarget.Json

/-!
# Reading JSON

A reader takes what it recognises off the front of a list of characters, and gives the characters behind
it as well. Lists and objects start with a bracket, so the number of characters bounds how deep they can
nest.
-/
namespace Retarget.Json

def skipBlanks (chars : List Char) : List Char := chars.dropWhile Char.isWhitespace

/-! ## Strings -/

def hexDigit? (c : Char) : Option Nat :=
  if c.isDigit then some (c.toNat - 48)
  else if 'a' ≤ c && c ≤ 'f' then some (c.toNat - 87)
  else if 'A' ≤ c && c ≤ 'F' then some (c.toNat - 55)
  else none

def unit? (a b c d : Char) : Option UInt16 := do
  let high := (← hexDigit? a) * 16 + (← hexDigit? b)
  let low := (← hexDigit? c) * 16 + (← hexDigit? d)
  return (high * 256 + low).toUInt16

def shortEscape? : Char → Option Char
  | 'n' => some '\n'
  | 'r' => some '\r'
  | 't' => some '\t'
  | 'b' => some (Char.ofNat 8)
  | 'f' => some (Char.ofNat 12)
  | '"' => some '"'
  | '\\' => some '\\'
  | '/' => some '/'
  | _ => none

/-- The code units of the rest of a string, up to and with the closing quote. -/
def readUnits : List Char → Option (List UInt16 × List Char)
  | '"' :: rest => some ([], rest)
  | '\\' :: 'u' :: a :: b :: c :: d :: rest => do
    let unit ← unit? a b c d
    let (more, rest) ← readUnits rest
    return (unit :: more, rest)
  | '\\' :: c :: rest => do
    let c ← shortEscape? c
    let (more, rest) ← readUnits rest
    return (Text.charUnits c ++ more, rest)
  | c :: rest => do
    let (more, rest) ← readUnits rest
    return (Text.charUnits c ++ more, rest)
  | [] => none

def pieceChar? : Text.Piece → Option Char
  | .char c => some c
  | .lone _ => none

/-- The rest of a string, up to and with the closing quote. -/
def readString (chars : List Char) : Option (String × List Char) := do
  let (units, rest) ← readUnits chars
  let chars ← (Text.ofUnits units).mapM pieceChar?
  return (String.ofList chars, rest)

/-! ## Numbers -/

def readDigits (chars : List Char) : List Char × List Char :=
  (chars.takeWhile Char.isDigit, chars.dropWhile Char.isDigit)

def digitsValue (digits : List Char) : Nat := digits.foldl (fun n c => n * 10 + (c.toNat - 48)) 0

def readSign : List Char → Bool × List Char
  | '-' :: rest => (true, rest)
  | '+' :: rest => (false, rest)
  | rest => (false, rest)

def readExponent : List Char → Int × List Char
  | c :: rest =>
    if c = 'e' || c = 'E' then
      let (negative, rest) := readSign rest
      let (digits, rest) := readDigits rest
      (if negative then -(digitsValue digits : Int) else digitsValue digits, rest)
    else (0, c :: rest)
  | [] => (0, [])

def readFraction : List Char → List Char × List Char
  | '.' :: rest => readDigits rest
  | rest => ([], rest)

def readNumber (chars : List Char) : Option (Number × List Char) :=
  let (negative, chars) := readSign chars
  let (whole, chars) := readDigits chars
  if whole.isEmpty then none
  else
    let (fraction, chars) := readFraction chars
    let (exponent, chars) := readExponent chars
    let magnitude := (Decimal.mk (digitsValue (whole ++ fraction)) (exponent - fraction.length)).toNumber
    some (if negative then magnitude.neg else magnitude, chars)

def ofNumber (chars : List Char) (value : Number) : Json :=
  if value.isZero && chars.head? = some '-' then .minusZero else .number value

/-! ## Documents -/

mutual

def readValue : Nat → List Char → Option (Json × List Char)
  | 0, _ => none
  | fuel + 1, chars =>
    match skipBlanks chars with
    | 'n' :: 'u' :: 'l' :: 'l' :: rest => some (.null, rest)
    | 't' :: 'r' :: 'u' :: 'e' :: rest => some (.bool true, rest)
    | 'f' :: 'a' :: 'l' :: 's' :: 'e' :: rest => some (.bool false, rest)
    | '"' :: rest => (readString rest).map fun (value, rest) => (.string value, rest)
    | '[' :: rest =>
      match skipBlanks rest with
      | ']' :: rest => some (.array [], rest)
      | rest => (readItems fuel rest).map fun (items, rest) => (.array items, rest)
    | '\x7b' :: rest =>
      match skipBlanks rest with
      | '\x7d' :: rest => some (.object [], rest)
      | rest => (readMembers fuel rest).map fun (members, rest) => (ofMembers members, rest)
    | chars => (readNumber chars).map fun (value, rest) => (ofNumber chars value, rest)

/-- The items of a list, up to and with the closing bracket. -/
def readItems : Nat → List Char → Option (List Json × List Char)
  | 0, _ => none
  | fuel + 1, chars => do
    let (item, rest) ← readValue fuel chars
    match skipBlanks rest with
    | ',' :: rest => (readItems fuel rest).map fun (more, rest) => (item :: more, rest)
    | ']' :: rest => return ([item], rest)
    | _ => none

/-- The members of an object, up to and with the closing brace. -/
def readMembers : Nat → List Char → Option (List (String × Json) × List Char)
  | 0, _ => none
  | fuel + 1, chars =>
    match skipBlanks chars with
    | '"' :: rest => do
      let (name, rest) ← readString rest
      match skipBlanks rest with
      | ':' :: rest =>
        let (value, rest) ← readValue fuel rest
        let member := (name, value)
        match skipBlanks rest with
        | ',' :: rest => (readMembers fuel rest).map fun (more, rest) => (member :: more, rest)
        | '\x7d' :: rest => return ([member], rest)
        | _ => none
      | _ => none
    | _ => none

end

def parse? (text : String) : Option Json :=
  let chars := text.toList
  match readValue (chars.length + 1) chars with
  | some (value, rest) => if (skipBlanks rest).isEmpty then some value else none
  | none => none

end Retarget.Json
