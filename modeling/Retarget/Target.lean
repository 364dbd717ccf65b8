import Retarget.Diagnostic
import Retarget.Json

/-!
# Targets

The machines and languages that code is emitted for, each with a fixed description of what it can do.
-/
namespace Retarget

inductive Target where
  | c99
  | z80
  | mos6502
  | m68k
  | llvm
deriving DecidableEq, Repr, Inhabited

structure Descriptor where
  name : String
  description : String
  bitsInWord : Nat
  pointerBits : Nat
  /-- Whether signed and unsigned values are compared by instructions or flags of their own. -/
  comparisons : String
  addressingModes : List String
  supportsSmc : Bool
  features : List Feature
  outputFormat : String
  fileExtension : String
  commentPrefix : String
  /-- Tools that can build and run the output. -/
  executors : List String
deriving Repr

namespace Target

def all : List Target := [.c99, .z80, .mos6502, .m68k, .llvm]

def descriptor : Target → Descriptor
  | .c99 => {
      name := "c99"
      description := "Portable C99, the reference for every other target"
      bitsInWord := 64
      pointerBits := 64
      comparisons := "signedAndUnsigned"
      addressingModes := ["registerIndirect"]
      supportsSmc := false
      features := [.integer32, .fixedPoint, .pointers]
      outputFormat := "c"
      fileExtension := "c"
      commentPrefix := "//"
      executors := ["cc"] }
  | .z80 => {
      name := "z80-smc"
      description := "Zilog Z80, IX frames or self-modifying parameter slots"
      bitsInWord := 8
      pointerBits := 16
      comparisons := "unsignedOnly"
      addressingModes := ["immediate", "absolute", "indexed", "registerIndirect", "selfModifying"]
      supportsSmc := true
      features := [.smc, .integer32, .fixedPoint, .pointers]
      outputFormat := "z80-asm"
      fileExtension := "a80"
      commentPrefix := ";"
      executors := [] }
  | .mos6502 => {
      name := "mos6502"
      description := "MOS 6502, arguments and locals on the hardware stack page"
      bitsInWord := 8
      pointerBits := 16
      comparisons := "unsignedOnly"
      addressingModes := ["immediate", "absolute", "zeroPage", "indexed", "indirectIndexed"]
      supportsSmc := false
      features := [.integer32, .fixedPoint, .pointers]
      outputFormat := "6502-asm"
      fileExtension := "s"
      commentPrefix := ";"
      executors := [] }
  | .m68k => {
      name := "m68k"
      description := "Motorola 68000, link/unlk frames with stack arguments"
      bitsInWord := 32
      pointerBits := 32
      comparisons := "signedAndUnsigned"
      addressingModes := ["immediate", "absolute", "registerIndirect", "stackRelative", "indexed"]
      supportsSmc := false
      features := [.integer32, .fixedPoint, .pointers]
      outputFormat := "68k-asm"
      fileExtension := "s"
      commentPrefix := "|"
      executors := [] }
  | .llvm => {
      name := "llvm"
      description := "Portable SSA form in LLVM textual IR"
      bitsInWord := 64
      pointerBits := 64
      comparisons := "signedAndUnsigned"
      addressingModes := ["registerIndirect"]
      supportsSmc := false
      features := [.integer32, .fixedPoint, .pointers]
      outputFormat := "llvm-ir"
      fileExtension := "ll"
      commentPrefix := ";"
      executors := [] }

def name (t : Target) : String := t.descriptor.name

def pointerBits (t : Target) : Nat := t.descriptor.pointerBits

def supportsSmc (t : Target) : Bool := t.descriptor.supportsSmc

def ofName? (name : String) : Option Target := all.find? (·.name == name)

def named? : Json → Option Target
  | .string name => ofName? name
  | _ => none

/-- The target that a setting names, or the fault of one that names none. -/
def named (setting : Json) : Checked Target :=
  match named? setting with
  | some target => .ok target
  | none => .error (.unhandled setting.compact "backendFor")

end Target

end Retarget
