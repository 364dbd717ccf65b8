import Retarget.Emit.M68k.Select

/-!
# 68000 assembly files

A file has a header, the procedures and the data.
-/
namespace Retarget.M68k

def procedureCode (program : Program) (p : Procedure) : Emit Code := do
  let name ← Emit.check p.symbol.text
  let body ← Emit.selectEach (select ⟨program, name, slotsOf p⟩) p.instructions
  return [.raw s!"    .globl {name}", .label name,
    .code (.link (frameSize p)) "Reserve a long word per local"] ++ body

/-! ## Data -/

def commentSign : String := Target.m68k.descriptor.commentPrefix

def codeText (comments : Bool) (lines : Code) : Checked String :=
  Line.listText Instruction.text commentSign comments lines

/-- A value taken without its sign, in storage of the given width. -/
def unsignedValue (bytes value : Number) : Number :=
  (bytesOf value bytes).foldr (fun byte rest => (rest.mul 256).add byte) 0

def directiveFor (bytes : Number) : String :=
  if bytes = 1 then ".byte" else if bytes = 2 then ".word" else ".long"

def bigEndianData (type : Ty) (initializer : Option Initializer) : Checked String := do
  let size ← type.sizeInBytes pointerBits
  match initializer with
  | none => return ".space " ++ size.text
  | some initializer =>
    let elementSize ← type.element.sizeInBytes pointerBits
    let values := (initialValues type initializer).map (unsignedValue elementSize)
    return directiveFor elementSize ++ " " ++ Text.join "," (values.map Number.text)

def globalData (g : GlobalVariable) : Checked Code := do
  let data ← bigEndianData g.type g.initializer
  return [.plain (.directive ".even"), .label g.qualifiedName, .plain (.directive data)]

def literalData (s : StringLiteral) : Code :=
  [.plain (.directive ".even"), .label s.name, .plain (.directive s!".word {Text.length s.value}"),
      .plain (.directive s!".long {s.name}_data"), .label s!"{s.name}_data"]
    ++ if s.bytes.isEmpty then [] else code [.directive s!".byte {s.byteOperands}"]

def dataCode (program : Program) : Checked Code := do
  let globals ← program.globals.mapM globalData
  return [.raw "    .data"] ++ globals.flatten ++ program.literals.flatMap literalData

/-! ## Files -/

def header (program : Program) (externals : List String) : String :=
  let description := Target.m68k.descriptor.description
  Text.join "\n" ([s!"{commentSign} Module {program.module}, generated for {description}"]
    ++ externals.map (fun name => s!"    .extern {name}") ++ ["    .text"])

def emit (program : Program) (comments : Bool) : Checked (Outcome String) := do
  let emitted ← Emit.each .m68k program.procedures fun p => do
    Emit.check (codeText comments (← procedureCode program p))
  match emitted with
  | .error errors => return .error errors
  | .ok (procedures, externals) =>
    let data ← codeText comments (← dataCode program)
    return .ok (Text.join "\n\n" (header program externals :: procedures ++ [data]) ++ "\n")

end Retarget.M68k
