import Retarget.Ty.Basic

/-!
# Symbols

A function is named by its module, its own name and, for an instance of a generic function, the types
that tell it apart from its siblings. Symbols become text only where text is written.
-/
namespace Retarget

structure Symbol where
  module : String
  name : String
  /-- Empty for ordinary functions. -/
  mangling : List Ty
deriving DecidableEq, Repr, Inhabited

namespace Symbol

/-- `Module_name` and a `$type` for every type of the mangling. -/
def text (s : Symbol) : Checked String := do
  return Text.join "$" ((s.module ++ "_" ++ s.name) :: (← s.mangling.mapM Ty.shortName))

end Symbol

/-- Where data lives: in a global variable or in an entry of the string pool. -/
inductive DataSymbol where
  | global (module name : String)
  | literal (index : Numeral)
deriving DecidableEq, Repr

def globalName (module name : String) : String := module ++ "." ++ name

def literalName (index : Numeral) : String := "str_" ++ index.text

namespace DataSymbol

def text : DataSymbol → String
  | .global module name => globalName module name
  | .literal index => literalName index

end DataSymbol

end Retarget
