/-!
# Text

A text is a `String`; what depends on its UTF-16 code units (length, order, output one unit at a time) is
a view of it, `units`. Reading units back keeps a surrogate without its partner apart, as no character
stands for one.
-/
namespace Retarget.Text

/-! ## Code units -/

/-- The UTF-16 code units of a character: one in the basic plane, otherwise a surrogate pair. -/
def charUnits (c : Char) : List UInt16 :=
  if c.toNat < 0x10000 then [c.toNat.toUInt16]
  else
    let rest := c.toNat - 0x10000
    [(0xD800 + rest / 0x400).toUInt16, (0xDC00 + rest % 0x400).toUInt16]

def units (s : String) : List UInt16 := s.toList.flatMap charUnits

def length (s : String) : Nat := (units s).length

def firstUnits (s : String) : List UInt16 := s.toList.flatMap fun c => (charUnits c).take 1

/-- A character, or a surrogate that is not part of a pair. -/
inductive Piece where
  | char (c : Char)
  | lone (unit : UInt16)
deriving DecidableEq, Repr

def isHigh (u : UInt16) : Bool := 0xD800 ≤ u && u ≤ 0xDBFF

def isLow (u : UInt16) : Bool := 0xDC00 ≤ u && u ≤ 0xDFFF

def pairChar (high low : UInt16) : Char :=
  Char.ofNat (0x10000 + (high.toNat - 0xD800) * 0x400 + (low.toNat - 0xDC00))

def ofUnits : List UInt16 → List Piece
  | [] => []
  | high :: low :: rest =>
    if isHigh high && isLow low then .char (pairChar high low) :: ofUnits rest
    else if isHigh high || isLow high then .lone high :: ofUnits (low :: rest)
    else .char (Char.ofNat high.toNat) :: ofUnits (low :: rest)
  | [unit] => if isHigh unit || isLow unit then [.lone unit] else [.char (Char.ofNat unit.toNat)]

/-! ## Order -/

/-- Whether one sequence of units comes before another, or is it. -/
def unitsLe : List UInt16 → List UInt16 → Bool
  | [], _ => true
  | _ :: _, [] => false
  | a :: as, b :: bs => if a < b then true else if b < a then false else unitsLe as bs

def le (s t : String) : Bool := unitsLe (units s) (units t)

def sortDistinct (texts : List String) : List String := (texts.eraseDups).mergeSort le

/-! ## Blanks -/

/-- White space and line ends, in every script. -/
def isBlank (c : Char) : Bool :=
  let n := c.toNat
  (0x09 ≤ n && n ≤ 0x0D) || n == 0x20 || n == 0xA0 || n == 0x1680 || (0x2000 ≤ n && n ≤ 0x200A)
    || n == 0x2028 || n == 0x2029 || n == 0x202F || n == 0x205F || n == 0x3000 || n == 0xFEFF

def trim (s : String) : String :=
  .ofList (((s.toList.dropWhile isBlank).reverse.dropWhile isBlank).reverse)

/-! ## Digits -/

/-- `n` in hexadecimal capitals, with zeros in front up to `width` digits. -/
def hex (width n : Nat) : String :=
  let digits := (Nat.toDigits 16 n).map Char.toUpper
  .ofList (List.replicate (width - digits.length) '0' ++ digits)

/-! ## Quoting -/

def quoteChar (c : Char) : List Char :=
  match c with
  | '"' => ['\\', '"']
  | '\\' => ['\\', '\\']
  | '\n' => ['\\', 'n']
  | '\r' => ['\\', 'r']
  | '\t' => ['\\', 't']
  | c =>
    if c.toNat = 0x08 then ['\\', 'b']
    else if c.toNat = 0x0C then ['\\', 'f']
    else if c.toNat < 0x20 then
      let digits := Nat.toDigits 16 c.toNat
      ['\\', 'u'] ++ List.replicate (4 - digits.length) '0' ++ digits
    else [c]

/-- The text in double quotes, with control characters, quotes and backslashes escaped. -/
def quote (s : String) : String := .ofList ('"' :: s.toList.flatMap quoteChar ++ ['"'])

def join (separator : String) (texts : List String) : String := separator.intercalate texts

end Retarget.Text
