import Retarget.Proofs.Emit.Mos6502.Arguments
import Retarget.Proofs.Emit.Z80.Arguments

/-!
# Callers and callees agree on arguments

On the Z80 and on the 6502 arguments travel on the stack. Where a caller leaves the bytes of an argument is where
the callee has the register of the parameter, and the caller takes off again what it pushed
(`arguments_meet_parameters`).
-/
namespace Retarget

/-- On both machines the callee finds every argument where it has the parameter, unless a later parameter has the
same register, and the code behind the call takes off exactly what was pushed. -/
theorem arguments_meet_parameters (labels : String → Word) (returnAddress : Word) :
    (∀ (call : Z80.Call) (m : Z80.Machine), call.IsAtRest m → call.Agrees labels m returnAddress) ∧
    ∀ (call : Mos6502.Call) (m : Mos6502.Machine), call.IsAtRest m → call.Agrees labels m returnAddress :=
  ⟨fun call _ h => call.agrees labels h returnAddress, fun call _ h => call.agrees labels h returnAddress⟩

/-- A procedure with parameters of one, four and two bytes. -/
def mix : Procedure where
  symbol := ⟨"M", "mix", []⟩
  parameters := [⟨"a", ⟨1, .u8⟩⟩, ⟨"b", ⟨2, .u32⟩⟩, ⟨"c", ⟨3, .u16⟩⟩]
  returnType := .u16
  locals := []
  registers := [⟨1, .u8⟩, ⟨2, .u32⟩, ⟨3, .u16⟩, ⟨4, .u16⟩]
  instructions := [⟨.move ⟨3, .u16⟩ ⟨4, .u16⟩, ""⟩, ⟨.ret (some ⟨4, .u16⟩), ""⟩]
  smcRequested := false
  isTailRecursive := false
  convention := .standard

/-- A procedure that mixes its registers. -/
def mixer : Procedure where
  symbol := ⟨"M", "mixer", []⟩
  parameters := []
  returnType := .void
  locals := []
  registers := [⟨1, .u16⟩, ⟨2, .u32⟩, ⟨3, .u8⟩]
  instructions := [⟨.call (.function mix.symbol) [⟨3, .u8⟩, ⟨2, .u32⟩, ⟨1, .u16⟩] (some ⟨1, .u16⟩), ""⟩,
    ⟨.ret none, ""⟩]
  smcRequested := false
  isTailRecursive := false
  convention := .standard

def mixing : Program := ⟨"M", [mix, mixer], [], []⟩

def Z80.mixes : Z80.Call where
  program := mixing
  caller := mixer
  callee := mix
  symbol := mix.symbol
  arguments := [⟨3, .u8⟩, ⟨2, .u32⟩, ⟨1, .u16⟩]
  destination := some ⟨1, .u16⟩
  name := "M_mixer"
  exit := some "M_mixer_epilogue"
  frame := ⟨[(1, .frame (-2)), (2, .frame (-6)), (3, .frame (-7))], 7⟩
  calleeFrame := ⟨[(1, .frame 4), (2, .frame 6), (3, .frame 10), (4, .frame (-2))], 2⟩
  lines := (Z80.callFunction ⟨mixing, "M_mixer", [(1, .frame (-2)), (2, .frame (-6)), (3, .frame (-7))],
    some "M_mixer_epilogue"⟩ mix.symbol [⟨3, .u8⟩, ⟨2, .u32⟩, ⟨1, .u16⟩] (some ⟨1, .u16⟩)).written
  entry := (Z80.procedureCode mixing mix).written
  calls := by decide
  isStandard := rfl
  sameTypes := rfl
  fits := ⟨⟨0, []⟩, ⟨0, []⟩, by unfold Emit.Gives; decide +kernel⟩
  callee_fits := ⟨⟨0, []⟩, ⟨0, []⟩, by unfold Emit.Gives; decide +kernel⟩
  lines_emitted := ⟨⟨0, []⟩, ⟨0, []⟩, by unfold Emit.Gives; decide +kernel⟩
  entry_emitted := ⟨⟨0, []⟩, ⟨0, []⟩, by unfold Emit.Gives; decide +kernel⟩

def Mos6502.mixes : Mos6502.Call where
  program := mixing
  caller := mixer
  callee := mix
  symbol := mix.symbol
  arguments := [⟨3, .u8⟩, ⟨2, .u32⟩, ⟨1, .u16⟩]
  destination := none
  name := "M_mixer"
  exit := "M_mixer_epilogue"
  frame := ⟨[(1, 0), (2, 2), (3, 6)], 7⟩
  calleeFrame := ⟨[(4, 0), (1, 4), (2, 5), (3, 9)], 2⟩
  lines := (Mos6502.call ⟨mixing, "M_mixer", [(1, 0), (2, 2), (3, 6)], "M_mixer_epilogue"⟩ (.function mix.symbol)
    [⟨3, .u8⟩, ⟨2, .u32⟩, ⟨1, .u16⟩] none).written
  entry := (Mos6502.procedureCode mixing mix).written
  calls := by decide
  sameTypes := rfl
  fits := ⟨⟨0, []⟩, ⟨0, []⟩, by unfold Emit.Gives; decide +kernel⟩
  callee_fits := ⟨⟨0, []⟩, ⟨0, []⟩, by unfold Emit.Gives; decide +kernel⟩
  lines_emitted := ⟨⟨0, []⟩, ⟨0, []⟩, by unfold Emit.Gives; decide +kernel⟩
  entry_emitted := ⟨⟨0, []⟩, ⟨0, ["__ret"]⟩, by unfold Emit.Gives; decide +kernel⟩

/-- A Z80 whose memory holds at every address its low byte. -/
def Z80.ramp (ix sp : Word) : Z80.Machine := ⟨fun _ => 0, 0, ix, sp, false, false, Word.low⟩

/-- A 6502 whose memory holds at every address its low byte. -/
def Mos6502.ramp (sp : Byte) : Mos6502.Machine := ⟨0, sp, 0, sp, false, false, Word.low⟩

theorem mixes_arguments_meet_parameters :
    Z80.mixes.IsAtRest (Z80.ramp 0x8007 0x8000) ∧ Z80.mixes.Agrees (fun _ => 0) (Z80.ramp 0x8007 0x8000) 0x1234 ∧
    Mos6502.mixes.IsAtRest (Mos6502.ramp 0x80) ∧ Mos6502.mixes.Agrees (fun _ => 0) (Mos6502.ramp 0x80) 0x1234 := by
  have hz80 : Z80.mixes.IsAtRest (Z80.ramp 0x8007 0x8000) := by
    unfold Z80.Call.IsAtRest
    decide
  have hmos6502 : Mos6502.mixes.IsAtRest (Mos6502.ramp 0x80) := ⟨rfl, 11, by decide +kernel, by decide⟩
  have hagree := arguments_meet_parameters (fun _ => 0) 0x1234
  exact ⟨hz80, hagree.1 _ _ hz80, hmos6502, hagree.2 _ _ hmos6502⟩

/-- A procedure with two parameters in one register. -/
def twin : Procedure where
  symbol := ⟨"M", "twin", []⟩
  parameters := [⟨"a", ⟨1, .u8⟩⟩, ⟨"b", ⟨1, .u8⟩⟩]
  returnType := .u8
  locals := []
  registers := [⟨1, .u8⟩]
  instructions := [⟨.ret (some ⟨1, .u8⟩), ""⟩]
  smcRequested := false
  isTailRecursive := false
  convention := .standard

def twinCaller : Procedure :=
  { mixer with
    registers := [⟨1, .u8⟩, ⟨2, .u8⟩]
    instructions := [⟨.call (.function twin.symbol) [⟨1, .u8⟩, ⟨2, .u8⟩] none, ""⟩, ⟨.ret none, ""⟩] }

def twins : Program := ⟨"M", [twin, twinCaller], [], []⟩

def Z80.callsTwin : Z80.Call where
  program := twins
  caller := twinCaller
  callee := twin
  symbol := twin.symbol
  arguments := [⟨1, .u8⟩, ⟨2, .u8⟩]
  destination := none
  name := "M_mixer"
  exit := some "M_mixer_epilogue"
  frame := ⟨[(1, .frame (-1)), (2, .frame (-2))], 2⟩
  calleeFrame := ⟨[(1, .frame 6)], 0⟩
  lines := (Z80.callFunction ⟨twins, "M_mixer", [(1, .frame (-1)), (2, .frame (-2))], some "M_mixer_epilogue"⟩
    twin.symbol [⟨1, .u8⟩, ⟨2, .u8⟩] none).written
  entry := (Z80.procedureCode twins twin).written
  calls := by decide
  isStandard := rfl
  sameTypes := rfl
  fits := ⟨⟨0, []⟩, ⟨0, []⟩, by unfold Emit.Gives; decide +kernel⟩
  callee_fits := ⟨⟨0, []⟩, ⟨0, []⟩, by unfold Emit.Gives; decide +kernel⟩
  lines_emitted := ⟨⟨0, []⟩, ⟨0, []⟩, by unfold Emit.Gives; decide +kernel⟩
  entry_emitted := ⟨⟨0, []⟩, ⟨0, []⟩, by unfold Emit.Gives; decide +kernel⟩

/-- The first of two parameters in one register is looked for where the second argument lies. -/
theorem callsTwin_loses_argument : ∃ pushes behind m₁ m₂,
    Z80.callsTwin.IsAtRest (Z80.ramp 0x8002 0x8000) ∧
    Z80.callsTwin.lines = pushes ++ Z80.code [.call "M_twin"] ++ behind ∧
    Z80.run (fun _ => 0) pushes (Z80.ramp 0x8002 0x8000) = some m₁ ∧
    Z80.run (fun _ => 0) (Z80.framePrologue 0) (m₁.pushWord 0x1234) = some m₂ ∧
    Z80.callsTwin.callee.parameters[0]? = some ⟨"a", ⟨1, .u8⟩⟩ ∧
    Z80.callsTwin.calleeFrame.homes.get? 1 = some (.frame 6) ∧
    m₂.memory ((Z80.Place.frame 6).address (fun _ => 0) m₂) ≠
      (Z80.ramp 0x8002 0x8000).memory ((Z80.Place.frame (-1)).address (fun _ => 0) (Z80.ramp 0x8002 0x8000)) := by
  refine ⟨Z80.callsTwin.lines.take 6, Z80.callsTwin.lines.drop 7, _, _, ?_, by decide +kernel, rfl, rfl, rfl,
    by decide +kernel, ?_⟩
  · unfold Z80.Call.IsAtRest
    decide
  · decide +kernel

end Retarget
