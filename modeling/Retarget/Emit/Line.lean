import Retarget.Fault
import Retarget.Json

/-!
# Lines of assembly

An emitter writes labels, instructions of its machine and lines of its own making. Instructions are kept
as data until the text is written; a note goes with each and is written as a comment.
-/
namespace Retarget

inductive Line (ι : Type) where
  | label (name : String)
  | code (instruction : ι) (why : String)
  /-- Written as it is, at the margin. -/
  | raw (text : String)
  /-- A line of no known kind, as the document it is. -/
  | unknown (node : Json)
deriving DecidableEq, Repr

namespace Line

variable {ι : Type}

def plain (instruction : ι) : Line ι := .code instruction ""

/-- A line of text, for a way to write instructions, the sign that starts a comment and whether comments
are written at all. -/
def text (write : ι → String) (commentSign : String) (comments : Bool) : Line ι → Checked String
  | .label name => .ok s!"{name}:"
  | .raw text => .ok text
  | .code instruction why =>
    let note := if comments && why != "" then s!" {commentSign} {why}" else ""
    .ok s!"    {write instruction}{note}"
  | .unknown node => .error (.unhandled node.compact "linesToString")

def listText (write : ι → String) (commentSign : String) (comments : Bool) (lines : List (Line ι)) :
    Checked String := do
  return Text.join "\n" (← lines.mapM (text write commentSign comments))

/-- Gives the note to the first instruction among the lines, unless that has one already. -/
def withWhy (why : String) : List (Line ι) → List (Line ι)
  | [] => []
  | .code instruction note :: rest => .code instruction (if note = "" then why else note) :: rest
  | line :: rest => line :: withWhy why rest

end Line

end Retarget
