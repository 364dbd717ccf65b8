import Retarget.Ty.Basic

/-!
# Registers

A procedure computes in virtual registers. Its register table hands out ids `1, 2, 3, …`; an id means
nothing outside the procedure.
-/
namespace Retarget

structure Register where
  id : Numeral
  type : Ty
deriving DecidableEq, Repr, Inhabited

namespace Register

def text (r : Register) : String := "r" ++ r.id.text

/-- The register with its type: `r1:u8`. -/
def typedText (r : Register) : Checked String := do return r.text ++ ":" ++ (← r.type.text)

/-- Registers are told apart by id alone. -/
def same (r s : Register) : Bool := r.id == s.id

end Register

abbrev RegisterTable := List Register

def RegisterTable.fresh (table : RegisterTable) (type : Ty) : Register := ⟨.natural (table.length + 1), type⟩

def RegisterTable.allocate (table : RegisterTable) (type : Ty) : Register × RegisterTable :=
  (table.fresh type, table ++ [table.fresh type])

end Retarget
