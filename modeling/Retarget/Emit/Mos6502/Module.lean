import Retarget.Emit.Mos6502.Select

/-!
# 6502 assembly files

A file has a header, the procedures and the data.
-/
namespace Retarget.Mos6502

def procedureCode (program : Program) (p : Procedure) : Emit Code := do
  let name ← Emit.check p.symbol.text
  let frame ← frameOf p
  let exit := s!"{name}_epilogue"
  let body ← Emit.selectEach (select ⟨program, name, frame.offsets, exit⟩) p.instructions
  return [.label name] ++ reserve frame.size ++ body ++ [.label exit] ++ release frame.size
    ++ code [.ret]

/-! ## Data -/

def commentSign : String := Target.mos6502.descriptor.commentPrefix

def codeText (comments : Bool) (lines : Code) : Checked String :=
  Line.listText Instruction.text commentSign comments lines

def directives : DataDirectives := ⟨".byte", ".word", ".res"⟩

def globalData (g : GlobalVariable) : Checked Code := do
  let data ← littleEndianData g.type g.initializer pointerBits directives
  return [.label g.qualifiedName, .plain (.directive data)]

def literalData (s : StringLiteral) : Code :=
  [.label s.name, .plain (.directive s!".word {Text.length s.value},{s.name}_data"),
      .label s!"{s.name}_data"]
    ++ if s.bytes.isEmpty then [] else code [.directive s!".byte {s.byteOperands}"]

def dataCode (program : Program) : Checked Code := do
  let globals ← program.globals.mapM globalData
  return globals.flatten ++ program.literals.flatMap literalData

/-! ## Files -/

/-- Symbols of instances hold a dollar sign, which the assembler has to be told. -/
def header (program : Program) (externals : List String) : Checked String := do
  let description := Target.mos6502.descriptor.description
  let symbols ← program.procedures.mapM (·.symbol.text)
  return Text.join "\n" ([s!"{commentSign} Module {program.module}, generated for {description}",
      "    .feature dollar_in_identifiers"]
    ++ externals.map (fun name => s!"    .import {name}")
    ++ symbols.map (fun name => s!"    .export {name}"))

def emit (program : Program) (comments : Bool) : Checked (Outcome String) := do
  let emitted ← Emit.each .mos6502 program.procedures fun p => do
    Emit.check (codeText comments (← procedureCode program p))
  match emitted with
  | .error errors => return .error errors
  | .ok (procedures, externals) =>
    let data ← codeText comments (← dataCode program)
    return .ok (Text.join "\n\n" ((← header program externals) :: procedures ++ [data]) ++ "\n")

end Retarget.Mos6502
