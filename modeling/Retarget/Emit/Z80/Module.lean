import Retarget.Emit.Z80.Select

/-!
# Z80 assembly files

A file has a header, the procedures, the table of slots for code that wants to patch them from outside,
and the data.
-/
namespace Retarget.Z80

/-- Copies what callers wrote into the slots to the homes of the parameters. -/
def smcPrologue (p : Procedure) (homes : Homes) : List (Parameter × Slot) → Emit Code
  | [] => return []
  | (q, slot) :: rest => do
    let base ← Emit.check (slotBase p q)
    match homes.get? q.register.id with
    | none => throw (.fault (.noParameterHome q.name))
    | some home =>
      let (load, store) : Instruction × Code :=
        if slot.bytes = 1 then (.setByte .a 0, storeA home) else (.setWord .hl 0, storeHL home 0)
      let head : Code := [.label s!"{base}_op", .code load s!"Slot for {q.name}, patched by callers",
        .raw s!"{slot.label} EQU {base}_op+1"]
      return head ++ store ++ (← smcPrologue p homes rest)

def framePrologue (size : Nat) : Code :=
  [.code (.push .ix) "Set up frame"] ++ code [.setWord .ix 0, .addWord .ix .sp]
    ++ if size = 0 then []
      else .code (.setWord .hl (.ofInt (-(size : Int)))) "Reserve locals"
        :: code [.addWord .hl .sp, .copyToStackPointer .hl]

def epilogue (label : String) : Code :=
  .label label :: code [.copyToStackPointer .ix, .pop .ix, .ret]

def staticStorage (homes : Homes) : List Register → Emit Code
  | [] => return []
  | r :: rest => do
    let storage ← match homes.get? r.id with
      | some (.static label) => do
        let size ← sizeOfType r.type
        pure [.label label, .plain (.directive s!"DS {size.bytes}")]
      | _ => pure []
    return storage ++ (← staticStorage homes rest)

def procedureHead (name : String) (convention : Convention) : Code :=
  [.raw s!"; {convention.name} convention", .label name]

/-- A procedure whose registers live in its frame. -/
def standardProcedure (program : Program) (p : Procedure) (name : String) : Emit Code := do
  let frame ← frameOf p
  let exit := s!"{name}_epilogue"
  let body ← Emit.selectEach (select ⟨program, name, frame.homes, some exit⟩) p.instructions
  return procedureHead name p.convention ++ framePrologue frame.size ++ body ++ epilogue exit

/-- A procedure that finds its arguments in its own code. -/
def smcProcedure (program : Program) (p : Procedure) (name : String) : Emit Code := do
  let homes := staticHomes name p
  let body ← Emit.selectEach (select ⟨program, name, homes, none⟩) p.instructions
  let prologue ← smcPrologue p homes (p.parameters.zip (← slots p))
  return procedureHead name p.convention ++ prologue ++ body ++ (← staticStorage homes p.registers)

def procedureCode (program : Program) (p : Procedure) : Emit Code := do
  let name ← Emit.check p.symbol.text
  match p.convention with
  | .standard => standardProcedure program p name
  | .smc => smcProcedure program p name

/-! ## Data -/

def commentSign : String := Target.z80.descriptor.commentPrefix

def codeText (comments : Bool) (lines : Code) : Checked String :=
  Line.listText Instruction.text commentSign comments lines

/-- The entries of the table for one procedure; one whose slots cannot be had was not emitted. -/
def patchEntries (p : Procedure) : Code :=
  match (slots p).runFresh with
  | .ok (found, _) => found.flatMap fun slot =>
      code [.directive s!"DW {slot.label}", .directive s!"DB {slot.bytes}"]
  | .error _ => []

/-- Where the slots of all procedures are, and how many bytes each has. -/
def patchTable (program : Program) : Code :=
  let patched := program.procedures.filter (·.convention = .smc)
  if patched.isEmpty then []
  else [.label "PATCH_TABLE"] ++ patched.flatMap patchEntries
    ++ [.code (.directive "DW 0") "End of table"]

def directives : DataDirectives := ⟨"DB", "DW", "DS"⟩

def globalData (g : GlobalVariable) : Checked Code := do
  let data ← littleEndianData g.type g.initializer pointerBits directives
  return [.label g.qualifiedName, .plain (.directive data)]

def literalData (s : StringLiteral) : Code :=
  [.label s.name, .plain (.directive s!"DW {Text.length s.value},{s.name}_data"), .label s!"{s.name}_data"]
    ++ if s.bytes.isEmpty then [] else code [.directive s!"DB {s.byteOperands}"]

def dataCode (program : Program) : Checked Code := do
  let globals ← program.globals.mapM globalData
  return patchTable program ++ globals.flatten ++ program.literals.flatMap literalData

/-! ## Files -/

def header (program : Program) (externals : List String) : String :=
  let description := Target.z80.descriptor.description
  Text.join "\n" (s!"{commentSign} Module {program.module}, generated for {description}"
    :: externals.map fun name => s!"    EXTERN {name}")

def emit (program : Program) (comments : Bool) : Checked (Outcome String) := do
  let emitted ← Emit.each .z80 program.procedures fun p => do
    Emit.check (codeText comments (← procedureCode program p))
  match emitted with
  | .error errors => return .error errors
  | .ok (procedures, externals) =>
    let data ← codeText comments (← dataCode program)
    return .ok (Text.join "\n\n" (header program externals :: procedures ++ [data]) ++ "\n")

end Retarget.Z80
