import Retarget.Emit.M68k.Module
import Retarget.Emit.Mos6502.Module
import Retarget.Emit.Z80.Module
import Retarget.Proofs.Emit.Data
import Retarget.Proofs.Text

/-!
# String constants read back

In a string constant a backslash and two hexadecimal digits stand for a byte, and everything else for itself. Read
so, the constant of a literal has the bytes that the assemblers are given, unless a character of the literal has a
printable low byte without being that byte (`constant_reads_as_bytes`).
-/
namespace Retarget

open List Llvm

namespace Text

def IsPrintable (n : Nat) : Prop := 0x20 ≤ n ∧ n < 0x7f

instance (n : Nat) : Decidable (IsPrintable n) := inferInstanceAs (Decidable (_ ∧ _))

def hexDigit? (c : Char) : Option Nat :=
  if c.isDigit then some (c.toNat - '0'.toNat)
  else if 'A' ≤ c ∧ c ≤ 'F' then some (c.toNat - 'A'.toNat + 10)
  else none

/-- The bytes that a string constant stands for, if it is one. -/
def constantBytes? : List Char → Option (List Nat)
  | [] => some []
  | '\\' :: high :: low :: rest => do
    return (16 * (← hexDigit? high) + (← hexDigit? low)) :: (← constantBytes? rest)
  | c :: rest => do
    if c = '\\' ∨ 256 ≤ c.toNat then none
    else return c.toNat :: (← constantBytes? rest)

theorem hex_byte : ∀ byte < 256,
    (hex 2 byte).toList = [(Nat.digitChar (byte / 16)).toUpper, (Nat.digitChar (byte % 16)).toUpper] := by
  decide +kernel

theorem hexDigit?_digitChar : ∀ d < 16, hexDigit? (Nat.digitChar d).toUpper = some d ∧
    IsPrintable (Nat.digitChar d).toUpper.toNat := by
  decide +kernel

end Text

namespace Llvm

open Text

/-- The low byte of the character is not printable, or is all of it. -/
def IsProper (c : Char) : Prop := IsPrintable (c.toNat % 256) → c.toNat < 256

variable {c : Char}

theorem escapeChar_of_basic (h : c.toNat < 0x10000) :
    escapeChar c = if IsPrintable (c.toNat % 256) ∧ c ≠ '"' ∧ c ≠ '\\' then [c]
      else ['\\', (Nat.digitChar (c.toNat % 256 / 16)).toUpper, (Nat.digitChar (c.toNat % 256 % 16)).toUpper] := by
  have hunit : c.toNat.toUInt16.toNat = c.toNat := Nat.mod_eq_of_lt h
  simp only [escapeChar, charUnits, if_pos h, headD_cons, hunit, hex_byte _ (Nat.mod_lt c.toNat (by decide))]
  simp [IsPrintable, and_assoc]

/-- A character reads back as its low byte, whatever follows. -/
theorem constantBytes?_escapeChar (h : c.toNat < 0x10000) (hproper : IsProper c) (rest : List Char) :
    constantBytes? (escapeChar c ++ rest) = (constantBytes? rest).map (c.toNat % 256 :: ·) := by
  rw [escapeChar_of_basic h]
  split
  · rename_i hc
    have hbyte := hproper hc.1
    rw [singleton_append, constantBytes?, if_neg (by simp [hc.2.2]; omega), Nat.mod_eq_of_lt hbyte]
    · cases constantBytes? rest <;> rfl
    · intro _ _ _ heq
      exact absurd heq hc.2.2
  · have hdigits : 16 * (c.toNat % 256 / 16) + c.toNat % 256 % 16 = c.toNat % 256 := Nat.div_add_mod _ _
    rw [cons_append, cons_append, singleton_append, constantBytes?, (hexDigit?_digitChar _ (by omega)).1,
      (hexDigit?_digitChar _ (by omega)).1]
    cases constantBytes? rest with
    | none => rfl
    | some bytes => exact congrArg (fun byte => some (byte :: bytes)) hdigits

/-- Exactly proper characters are written with printable ones. -/
theorem printable_escapeChar (h : c.toNat < 0x10000) : (∀ d ∈ escapeChar c, IsPrintable d.toNat) ↔ IsProper c := by
  rw [escapeChar_of_basic h]
  split
  · rename_i hc
    rw [forall_mem_singleton]
    exact ⟨fun hd _ => Nat.lt_trans hd.2 (by decide), fun hproper => Nat.mod_eq_of_lt (hproper hc.1) ▸ hc.1⟩
  · rename_i hc
    have hhigh := (hexDigit?_digitChar (c.toNat % 256 / 16) (by omega)).2
    have hlow := (hexDigit?_digitChar (c.toNat % 256 % 16) (by omega)).2
    simp only [forall_mem_cons, hhigh, hlow, not_mem_nil, false_implies, implies_true, and_true]
    refine iff_of_true (by decide) fun hprintable => ?_
    -- a printable low byte is escaped only in a quotation mark and in a backslash
    by_cases hquote : c = '"'
    · rw [hquote]
      decide
    · by_cases hslash : c = '\\'
      · rw [hslash]
        decide
      · exact absurd ⟨hprintable, hquote, hslash⟩ hc

end Llvm

/-! ## Literals -/

/-- The lines lay out bytes, with directives of the given name. -/
def Line.LayOut {ι : Type} (directive : String → ι) (word : String) (bytes : List Nat) (lines : List (Line ι)) : Prop :=
  ∃ texts : List String, lines = texts.map (fun text => .plain (directive text)) ∧
    (texts.mapM (Text.operands? word)).map flatten = some bytes

namespace StringLiteral

open Text

variable {s : StringLiteral}

theorem layOut_bytes {ι : Type} (directive : String → ι) (word : String) (s : StringLiteral) :
    Line.LayOut directive word s.bytes
      (if s.bytes.isEmpty then [] else [.plain (directive (word ++ " " ++ s.byteOperands))]) := by
  split
  · rename_i hempty
    exact ⟨[], rfl, by rw [isEmpty_iff.mp hempty]; rfl⟩
  · refine ⟨[word ++ " " ++ s.byteOperands], rfl, ?_⟩
    have hsmall : ∀ n ∈ s.bytes, n < twoTo 53 := by
      intro n hn
      obtain ⟨_, -, rfl⟩ := mem_map.mp hn
      exact Nat.lt_trans (Nat.mod_lt _ (by decide)) (by decide)
    rw [byteOperands, mapM_cons, operands?_text word s.bytes hsmall]
    simp

theorem bytes_of_isBasic (h : IsBasic s.value) : s.bytes = s.value.toList.map (·.toNat % 256) := by
  rw [bytes, firstUnits_of_isBasic h, map_map]
  refine map_congr_left fun c hc => ?_
  show c.toNat % 65536 % 256 = _
  rw [Nat.mod_eq_of_lt (h c hc)]

theorem constantBytes?_escape (h : IsBasic s.value) (hproper : ∀ c ∈ s.value.toList, IsProper c) :
    constantBytes? (escape s.value).toList = some s.bytes := by
  rw [bytes_of_isBasic h, escape, String.toList_ofList]
  unfold IsBasic at h
  generalize s.value.toList = cs at h hproper ⊢
  induction cs with
  | nil => rfl
  | cons c _ ih =>
    rw [forall_mem_cons] at h hproper
    rw [flatMap_cons, constantBytes?_escapeChar h.1 hproper.1, ih h.2 hproper.2]
    rfl

/-- The constant of a literal in the basic plane is written with printable characters exactly if the literal is
proper, and then it reads back as the bytes that the assemblers are given. There are as many of them as the array
is declared to have. -/
theorem constant_reads_as_bytes (s : StringLiteral) (h : IsBasic s.value) :
    ((∀ c ∈ (Llvm.escape s.value).toList, IsPrintable c.toNat) ↔ ∀ c ∈ s.value.toList, Llvm.IsProper c) ∧
    ((∀ c ∈ s.value.toList, Llvm.IsProper c) → constantBytes? (Llvm.escape s.value).toList = some s.bytes) ∧
    (∃ rest, Llvm.literalText s = "@" ++ s.name ++ ".data = private constant [" ++ s.bytes.length.repr ++
      " x i8] c\"" ++ Llvm.escape s.value ++ rest) ∧
    (∃ front data, Z80.literalData s = front ++ .label s!"{s.name}_data" :: data ∧
      Line.LayOut .directive "DB" s.bytes data) ∧
    (∃ front data, Mos6502.literalData s = front ++ .label s!"{s.name}_data" :: data ∧
      Line.LayOut .directive ".byte" s.bytes data) ∧
    ∃ front data, M68k.literalData s = front ++ .label s!"{s.name}_data" :: data ∧
      Line.LayOut .directive ".byte" s.bytes data := by
  refine ⟨?_, constantBytes?_escape h, ?_, ⟨[_, _], _, rfl, layOut_bytes _ "DB" s⟩,
    ⟨[_, _], _, rfl, layOut_bytes _ ".byte" s⟩, ⟨[_, _, _, _], _, rfl, layOut_bytes _ ".byte" s⟩⟩
  · simp only [escape, String.toList_ofList, forall_mem_flatMap]
    exact forall₂_congr fun c hc => printable_escapeChar (h c hc)
  · have hlength : s.bytes.length = length s.value := by
      rw [bytes, length_map, (length_eq_iff s.value).mpr h]
    unfold literalText
    rw [hlength]
    iterate 7 rw [String.append_assoc]
    exact ⟨_, rfl⟩

/-- A quotation mark, a byte beyond the printable ones, and a character that has no printable low byte. -/
theorem mixed_reads_as_bytes :
    IsBasic "a\"ßЀ" ∧ Llvm.escape "a\"ßЀ" = "a\\22\\DF\\00" ∧
      constantBytes? (Llvm.escape "a\"ßЀ").toList = some (bytes ⟨0, "a\"ßЀ"⟩) := by
  have hbasic : IsBasic "a\"ßЀ" := by simp [IsBasic]
  refine ⟨hbasic, by decide +kernel, (constant_reads_as_bytes ⟨0, "a\"ßЀ"⟩ hbasic).2.1 ?_⟩
  simp [IsProper, IsPrintable]

/-- A letter with the low byte of another is written as it is, and is no byte. -/
theorem caron_constant_not_printable :
    ∃ s : StringLiteral, IsBasic s.value ∧ (¬ ∀ c ∈ (Llvm.escape s.value).toList, IsPrintable c.toNat) ∧
      s.bytes = [0x61] ∧ constantBytes? (Llvm.escape s.value).toList = none := by
  refine ⟨⟨0, "š"⟩, by simp [IsBasic], fun h => ?_, by decide +kernel, by decide +kernel⟩
  have hcaron : IsPrintable 'š'.toNat := h 'š' (by decide +kernel)
  revert hcaron
  decide

end StringLiteral

end Retarget
