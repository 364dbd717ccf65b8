import Retarget.Proofs.Meaning.Following
import Retarget.Proofs.Number.Text
import Retarget.Proofs.Run.Memory
import Retarget.Proofs.Run.Simulation
import Retarget.Proofs.Text

/-!
# Printing string literals

The record of a literal says how many code units it has, and its data are the first units of its characters. These go
together for literals in the basic plane, and printing such a literal prints it. Printing any other reads past the data
(`literal_printed`).
-/
namespace Retarget

open Activation Assoc List Machine Number

/-! ## Literals in memory -/

namespace Memory

variable {memory : Memory} {name : String}

theorem read_ofCells (h : memory.get? name = some (.ofCells cells)) (i : Nat) :
    memory.read name (.ofNat i) =
      match cells[i]? with
      | some value => .ok (some value)
      | none => .error (.outOfBounds name (.ofNat i)) := by
  have houtside : (Block.ofCells cells).isOutside (.ofNat i) = decide (cells.length ≤ i) := by
    simp [Block.isOutside, Block.ofCells, ofNat, zero_eq, lt_dyadic, le_dyadic]
  rw [read, block, find?_of_get? h]
  by_cases hi : i < cells.length
  · simp only [houtside, Nat.not_le.mpr hi, decide_false, getElem?_eq_getElem hi]
    exact congrArg Except.ok (by simp [Block.get?, Block.ofCells, ofNat, toIndex?, hi])
  · simp only [houtside, Nat.not_lt.mp hi, decide_true, getElem?_eq_none (Nat.not_lt.mp hi)]
    rfl

/-- The units in the cells are printed one after another, up to the end of the block. -/
theorem stringUnits_ofCells {us : List UInt16} {count i}
    (h : memory.get? name = some (.ofCells (us.map fun unit => .number (.ofNat unit.toNat)))) (hi : i ≤ us.length) :
    stringUnits memory name 0 i count =
      ((us.drop i).take count,
        if i + count ≤ us.length then none else some (.outOfBounds name (.ofNat us.length))) := by
  induction count generalizing i with
  | zero => simp [stringUnits, hi]
  | succ count ih =>
    have hoffset : (0 : Number).advance i = .ofNat i := by simp [zero_eq, Number.advance, Number.ofNat]
    rw [stringUnits, hoffset, read_ofCells h, getElem?_map]
    rcases Nat.lt_or_eq_of_le hi with hlt | rfl
    · have hword : ((ofNat us[i].toNat).word 16).toNat.toUInt16 = us[i] := by simp [word_ofNat]
      simp only [getElem?_eq_getElem hlt, Option.map_some, ih hlt, hword, drop_eq_getElem_cons hlt, take_succ_cons,
        Nat.add_right_comm i 1, Nat.add_assoc]
    · simp

variable {s : StringLiteral}

/-- Printing a literal prints its data, and fails behind them if the record counts more units than that. -/
theorem printedString_literal (hrecord : memory.get? s.name = some (.ofCells s.cells))
    (hdata : memory.get? s.dataName = some (.ofCells s.dataCells)) :
    (Text.IsBasic s.value → printedString memory s.name 0 = (Text.units s.value, none)) ∧
      (¬ Text.IsBasic s.value → printedString memory s.name 0 =
        (Text.firstUnits s.value, some (.outOfBounds s.dataName (.ofNat s.value.toList.length)))) := by
  have hlength := Text.length_firstUnits s.value
  have hprinted : printedString memory s.name 0 = stringUnits memory s.dataName 0 0 (Text.length s.value) := by
    have hbelow : (ofNat (Text.length s.value)).below = Text.length s.value := by
      simp [below, ofNat, twoTo_zero]
    have hfirst : memory.read s.name 0 = .ok (some (.number (.ofNat (Text.length s.value)))) := read_ofCells hrecord 0
    have hsecond : memory.read s.name ((0 : Number).add 1) = .ok (some (.pointer s.dataName 0)) :=
      read_ofCells hrecord 1
    simp only [printedString, hfirst, hsecond, hbelow]
  rw [hprinted, stringUnits_ofCells hdata (Nat.zero_le _), drop_zero, Nat.zero_add]
  constructor
  · intro hbasic
    rw [(Text.length_eq_iff _).mpr hbasic, take_length, if_pos (Nat.le_refl _), Text.units_of_isBasic hbasic]
  · intro hbasic
    have hne := mt (Text.length_eq_iff _).mp hbasic
    have hle := Text.length_eq s.value
    rw [take_of_length_le (by omega), if_neg (by omega), hlength]

end Memory

namespace Program

variable {p : Program} {s : StringLiteral}

/-- The string pool numbers its entries, each with a name of its own. -/
structure HasPool (p : Program) : Prop where
  natural : ∀ s ∈ p.literals, ∃ n, s.index = .natural n
  distinct : (p.literals.map (·.name)).Nodup

theorem literalName_ne_append_data (n : Nat) (name : String) : literalName (.natural n) ≠ name ++ ".data" := by
  intro h
  have hdot : '.' ∈ (literalName (.natural n)).toList := by simp [h]
  simp only [literalName, Numeral.text, String.toList_append, Nat.toList_repr, mem_append] at hdot
  rcases hdot with hdot | hdot
  · exact absurd hdot (by decide)
  · exact absurd (Nat.isDigit_of_mem_toDigits (by decide) (by decide) hdot) (by decide)

theorem HasPool.names_nodup (h : p.HasPool) : (p.literals.flatMap fun s => [s.name, s.dataName]).Nodup := by
  have hne : ∀ s ∈ p.literals, ∀ t : StringLiteral, s.name ≠ t.dataName := by
    intro s hs t
    obtain ⟨n, hn⟩ := h.natural s hs
    rw [StringLiteral.name, hn]
    exact literalName_ne_append_data n t.name
  refine nodup_flatMap.mpr ⟨fun s hs => by simpa using hne s hs s, ?_⟩
  refine (pairwise_map.mp h.distinct).imp_of_mem fun {s t} hs ht hnames => ?_
  have hdata : s.dataName ≠ t.dataName := fun hdata => hnames (String.append_left_inj _ |>.mp hdata)
  simp [Function.onFun, hnames.symm, hdata.symm, (hne s hs t).symm, hne t ht s]

/-- Literals are laid out last, so no variable takes the place of one. -/
theorem HasPool.initialMemory (h : p.HasPool) (hs : s ∈ p.literals) :
    p.initialMemory.get? s.name = some (.ofCells s.cells) ∧
      p.initialMemory.get? s.dataName = some (.ofCells s.dataCells) := by
  have hnodup := h.names_nodup
  rw [initialMemory_eq, ofPairs, initialBlocks, foldl_append]
  constructor <;> refine get?_foldl_of_mem (by simpa [map_flatMap, Function.comp_def] using hnodup) ?_ _
  · exact mem_flatMap.mpr ⟨s, hs, .head _⟩
  · exact mem_flatMap.mpr ⟨s, hs, .tail _ (.head _)⟩

/-! ## Runs -/

/-- The operations of a procedure that prints a literal and returns. -/
def printing (s : StringLiteral) (r : Register) (destination : Option Register) : List Operation :=
  [.addressOf (.literal s.index) r, .call (.routine .printString) [r] destination, .ret none]

/-- The record of a literal of a pool counts its data exactly if the literal is in the basic plane. Then printing it,
where it is still as it was, prints its units and goes on, and a procedure that prints it does so and returns.
Printing any other literal prints the first units of its characters and then fails. -/
theorem literal_printed (h : p.HasPool) (hs : s ∈ p.literals) :
    (∃ record data, p.initialMemory.get? s.name = some record ∧ p.initialMemory.get? s.dataName = some data ∧
      (record.cells[0]? = some (.number (.ofNat data.cells.length)) ↔ Text.IsBasic s.value)) ∧
    (∀ {m f callers place store r destination operations}, m.Stands f callers place store →
      f.Has place (.call (.routine .printString) [r] destination :: operations) →
      m.active.get r = .ok (.pointer s.name 0) →
      (∀ name ∈ [s.name, s.dataName], store.memory.get? name = p.initialMemory.get? name) →
      (Text.IsBasic s.value → ∃ n, Steps p 1 m n ∧ n.active.registers = m.active.registers ∧
        n.Stands f callers (place + 1) ⟨store.memory, store.output ++ Text.units s.value⟩) ∧
      (¬ Text.IsBasic s.value → ∃ w, w.output = store.output ++ Text.firstUnits s.value ∧
        m.advance p = .ended (.failed (.outOfBounds s.dataName (.ofNat s.value.toList.length)) w))) ∧
    ∀ {f symbol r destination limit}, p.find? symbol = some f → f.parameters = [] →
      f.instructions.map (·.operation) = printing s r destination → 3 ≤ cyclesAllowed limit →
      (Text.IsBasic s.value →
        ∃ cycles depth, p.runFunction symbol [] limit = .ok (.finished none (Text.units s.value) cycles depth)) ∧
      (¬ Text.IsBasic s.value → p.runFunction symbol [] limit =
        .ok (.failed (.outOfBounds s.dataName (.ofNat s.value.toList.length)) (Text.firstUnits s.value))) := by
  obtain ⟨hrecord, hdata⟩ := h.initialMemory hs
  refine ⟨⟨_, _, hrecord, hdata, ?_⟩, (and_iff_left_of_imp fun hprints => ?_).mpr ?_⟩
  · rw [← Text.length_eq_iff]
    simp [Block.ofCells, StringLiteral.cells, StringLiteral.dataCells, ofNat]
  · -- taking the address leads to the call
    intro f symbol r destination limit hf hparameters hcode hlimit
    have hhas : f.Has 0 (printing s r destination) := ⟨[], by rw [hcode, append_nil, drop_zero]⟩
    have hstart : (p.startOf f []).Stands f [] 0 ⟨p.initialMemory, []⟩ := ⟨rfl, rfl, rfl, rfl, rfl⟩
    obtain ⟨m, hsteps, hm, hregs⟩ := hstart.goesOn hhas rfl (p := p) rfl
    have hr := get_eq_ok.mpr ((wrote_of_eq hregs r.id).trans (if_pos rfl))
    obtain ⟨hbasic, hother⟩ := hprints hm.silent hhas.tail hr fun _ _ => rfl
    rw [runFunction_of_some hf (by rw [hparameters]; rfl)]
    constructor
    · intro h
      obtain ⟨n, hlast, -, hn⟩ := hbasic h
      have hend := hn.returns_nothing hhas.tail.tail
      rw [run_of_steps_ended (hsteps.trans hlast) (advance_of_returns_nil hend.reaction hend.callers) hlimit]
      exact ⟨_, _, congrArg (fun output => Except.ok (RunResult.finished none output _ _)) hend.output⟩
    · intro h
      obtain ⟨w, hw, hend⟩ := hother h
      rw [run_of_steps_ended hsteps hend (by omega), Ending.result, hw]
      rfl
  · intro m f callers place store r destination operations hm hhas hr hmemory
    obtain ⟨hbasic, hother⟩ := Memory.printedString_literal ((hmemory _ (.head _)).trans hrecord)
      ((hmemory _ (.tail _ (.head _))).trans hdata)
    have hread : [r].mapM m.active.get = .ok [.pointer s.name 0] := by
      rw [mapM_cons, hr]
      rfl
    constructor
    · intro h
      have houtcome : Operation.outcome m.active.get store.memory (.call (.routine .printString) [r] destination) =
          .goesOn ⟨none, none, store.memory, Text.units s.value⟩ := by
        simp [Operation.outcome, Operation.reading, hread, Routine.print, hbasic h]
      obtain ⟨n, hsteps, hn, hregs⟩ := hm.goesOn hhas houtcome (p := p) rfl
      exact ⟨n, hsteps, hregs, hn⟩
    · intro h
      have houtcome : Operation.outcome m.active.get store.memory (.call (.routine .printString) [r] destination) =
          .stops (Text.firstUnits s.value) (.failure (.outOfBounds s.dataName (.ofNat s.value.toList.length))) := by
        simp [Operation.outcome, Operation.reading, hread, Routine.print, hother h]
      obtain ⟨w, hend, hw⟩ := hm.stops hhas houtcome (p := p)
      exact ⟨w, hw, hend⟩

/-- A program with one literal and a procedure that prints it. -/
def printer (value : String) : Program :=
  let r : Register := ⟨1, .pointer .string⟩
  let f : Procedure :=
    ⟨⟨"M", "f", []⟩, [], .void, [], [r], (printing ⟨0, value⟩ r none).map (⟨·, ""⟩), false, false, .standard⟩
  ⟨"M", [f], [], [⟨0, value⟩]⟩

theorem printer_hasPool (value : String) : (printer value).HasPool where
  natural s hs := by
    cases mem_singleton.mp hs
    exact ⟨0, rfl⟩
  distinct := nodup_singleton _

theorem printer_greeting : Text.IsBasic "hé" ∧ ∃ cycles depth,
    (printer "hé").runFunction ⟨"M", "f", []⟩ [] 3 = .ok (.finished none [0x68, 0xE9] cycles depth) := by
  have hbasic : Text.IsBasic "hé" := by simp [Text.IsBasic]
  exact ⟨hbasic, ((literal_printed (printer_hasPool _) (.head _)).2.2 rfl rfl rfl (by decide)).1 hbasic⟩

/-- The record of a literal outside the basic plane counts two units, but there is a cell for only one of them. -/
theorem printer_fails :
    let p := printer "😀"
    p.HasPool ∧ p.initialMemory.get? "str_0" = some (.ofCells [.number 2, .pointer "str_0.data" 0]) ∧
      p.initialMemory.get? "str_0.data" = some (.ofCells [.number 0xD83D]) ∧
      p.runFunction ⟨"M", "f", []⟩ [] 3 = .ok (.failed (.outOfBounds "str_0.data" 1) [0xD83D]) :=
  ⟨printer_hasPool _, by decide +kernel, by decide +kernel, by decide +kernel⟩

end Program

end Retarget
