import Retarget.Capability
import Retarget.Emit.C99.Module
import Retarget.Emit.Llvm.Module
import Retarget.Emit.M68k.Module
import Retarget.Emit.Mos6502.Module
import Retarget.Emit.Z80.Module
import Retarget.Lower.Module
import Retarget.Optimize.Pipeline

/-!
# Compiling

A module is lowered, optimised for its target, checked against what the target can do and emitted. The
first stage that fails decides the result.
-/
namespace Retarget

def Target.emit (target : Target) (program : Program) (comments : Bool) : Checked (Outcome String) :=
  match target with
  | .c99 => C99.emit program comments
  | .z80 => Z80.emit program comments
  | .mos6502 => Mos6502.emit program comments
  | .m68k => M68k.emit program comments
  | .llvm => Llvm.emit program comments

def Program.emit (program : Program) (target : Target) (comments : Bool) : Checked (Outcome String) := do
  let errors ← program.checkCapabilities target
  if errors.isEmpty then target.emit program comments else return .error errors

/-- Emits a program for the target that a setting names. A fault of the program itself comes before that
of a name which stands for no target. -/
def Program.emitFor (program : Program) (setting : Json) (comments : Bool) : Checked (Outcome String) := do
  match Target.named? setting with
  | some target => program.emit target comments
  | none =>
    program.checkNeeds
    let target ← Target.named setting
    target.emit program comments

structure Compiled where
  program : Program
  output : String
  target : Target

def Source.Module.compile (module : Source.Module) (options : Options) : Checked (Outcome Compiled) := do
  match ← module.lower options.limits with
  | .error errors => return .error errors
  | .ok lowered =>
    let target ← Target.named options.target
    match ← lowered.optimize options.passes options.smc target.supportsSmc with
    | .error errors => return .error errors
    | .ok program =>
      match ← program.emit target options.comments with
      | .error errors => return .error errors
      | .ok output => return .ok ⟨program, output, target⟩

end Retarget
