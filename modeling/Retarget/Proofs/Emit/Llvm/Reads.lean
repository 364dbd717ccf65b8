import Retarget.Proofs.Emit.Data
import Retarget.Proofs.Emit.Llvm.Storage
import Retarget.Proofs.Graph.Blocks
import Retarget.Proofs.Run.Orderly
import Retarget.Proofs.Run.Stretch

/-!
# Storages and runs

In every run of a procedure a register that is kept as a constant holds that constant whenever it is read, and one
that is kept as a value was last written by its definition, in the same pass through the block. A read that finds
no value ends the run, so only those that find one are spoken of (`classify_reflects`).
-/
namespace Retarget

open Checked List

def Procedure.definitions (f : Procedure) (id : Numeral) : List Instruction :=
  f.instructions.filter fun i => i.operation.writes.any (·.id == id)

/-- The next instruction reads the register, and finds the value in it. -/
def Machine.Fetches (m : Machine) (r : Register) (v : Value) : Prop :=
  ∃ i, m.next? = some i ∧ r ∈ i.operation.reads ∧ m.active.get r = .ok v

namespace FlowGraph

variable {g : FlowGraph} {is : List Instruction}

/-- Every place is one in a block. -/
theorem exists_block (hjoined : g.blocks.flatMap (·.instructions) = is) (h : is[place]? = some i) :
    ∃ index block k, g.blocks[index]? = some block ∧ block.instructions[k]? = some i ∧
      place = g.start index + k := by
  have hblocks : ∀ (blocks : List BasicBlock) (place : Nat), (blocks.flatMap (·.instructions))[place]? = some i →
      ∃ (index : Nat) (block : BasicBlock) (k : Nat), blocks[index]? = some block ∧ block.instructions[k]? = some i ∧
        place = ((blocks.take index).flatMap (·.instructions)).length + k := by
    intro blocks
    induction blocks with
    | nil => simp
    | cons block _ ih =>
      intro place h
      rw [flatMap_cons, getElem?_append] at h
      split at h
      · exact ⟨0, block, place, rfl, h, by simp⟩
      · obtain ⟨index, block', k, hblock, hk, hplace⟩ := ih _ h
        refine ⟨index + 1, block', k, hblock, hk, ?_⟩
        simp only [take_succ_cons, flatMap_cons, length_append]
        omega
  exact hblocks g.blocks place (hjoined ▸ h)

end FlowGraph

namespace Llvm

/-- The text of a constant stands for the value that the operation gives a register of the type. A number in the
range of the type is written so that it is read as it is. -/
inductive Denotes (type : Ty) : String → Operation → Value → Prop
  | number {value destination text} (written : literal value type = .ok text)
      (inRange : ∀ n, value = .ofInt n → type.Holds n → readLiteral? type text.toList = some n) :
      Denotes type text (.loadImmediate value destination) (.number value)
  | address {symbol destination} :
      Denotes type (symbolText symbol) (.addressOf symbol destination) (.pointer symbol.text 0)

/-- What the storages of a procedure's registers mean for its runs. -/
structure Reflects (storages : Storages) (f : Procedure) (g : FlowGraph) : Prop where
  /-- Parameters, and registers that no instruction or several ones write, have slots. -/
  single : ∀ id storage, storages.get? id = some storage → storage ≠ .slot →
    id ∉ f.parameterIds ∧ ∃ i, f.definitions id = [i]
  constant : ∀ (p : Program) (symbol : Symbol) (arguments : List Value) (limit : Number),
    ∀ m ∈ p.machines symbol arguments limit, m.active.procedure = f → ∀ r v, m.Fetches r v →
    ∀ text, storages.get? r.id = some (.constant text) →
    ∃ i, f.definitions r.id = [i] ∧ ∃ t ∈ f.registers, t.id = r.id ∧ Denotes t.type text i.operation v
  value : ∀ (p : Program) (symbol : Symbol) (arguments : List Value) (limit : Number),
    ∀ m ∈ p.machines symbol arguments limit, m.active.procedure = f → ∀ r v, m.Fetches r v →
    storages.get? r.id = some .value →
    ∃ i, f.definitions r.id = [i] ∧ (∃ t ∈ i.operation.results, t.id = r.id) ∧
    ∃ (index : Nat) (block : BasicBlock) (k l : Nat), g.blocks[index]? = some block ∧ block.instructions[k]? = some i ∧
      l < block.instructions.length ∧ m.active.position = g.start index + l ∧
    ∃ d ∈ p.machines symbol arguments limit, d.active.procedure = f ∧ d.active.position = g.start index + k ∧
      d.callers = m.callers ∧ Machine.KeptFrom p d r.id m.active.position (some v) m

section
variable {f : Procedure} {g : FlowGraph} {storages : Storages} {storage : Storage} {id : Numeral}
  {definition : Occurrence} {r : Register}

theorem classifyRegister_of_get? (h : classify f blocks = .ok storages) (hget : storages.get? id = some storage) :
    ∃ t ∈ f.registers, t.id = id ∧ classifyRegister f (occurrences blocks) t = .ok storage := by
  obtain ⟨_, hpairs, h⟩ := bind_eq_ok.mp h
  cases h
  obtain ⟨t, ht, hpair⟩ := exists_origin (forall₂_of_mapM hpairs) (Assoc.mem_of_get?_ofPairs hget)
  obtain ⟨_, hstorage, hpair⟩ := bind_eq_ok.mp hpair
  cases hpair
  exact ⟨t, ht, rfl, hstorage⟩

theorem mem_definitions : i ∈ f.definitions id ↔ i ∈ f.instructions ∧ ∃ w ∈ i.operation.writes, w.id = id := by
  simp [Procedure.definitions]

section
variable (hjoined : g.blocks.flatMap (·.instructions) = f.instructions)
  (hdefinition : (occurrences g.blocks).filter (·.writes r) = [definition])
include hjoined hdefinition

/-- The single definition of a register, as an instruction of the procedure. -/
theorem definitions_of_filter : ∃ block i, g.blocks[definition.block]? = some block ∧
    block.instructions[definition.position]? = some i ∧ definition.operation = i.operation ∧
      f.definitions r.id = [i] := by
  have hmem : definition ∈ (occurrences g.blocks).filter (·.writes r) := hdefinition ▸ .head _
  obtain ⟨hmem, hwrites⟩ := mem_filter.mp hmem
  obtain ⟨block, i, hblock, hi, hop⟩ := mem_occurrences.mp hmem
  have hops : (f.definitions r.id).map (·.operation) = [definition.operation] := calc
    _ = (f.instructions.map (·.operation)).filter fun op => op.writes.any (·.id == r.id) := filter_map.symm
    _ = ((occurrences g.blocks).filter (·.writes r)).map (·.operation) := by
      rw [← hjoined, ← operations_occurrences, filter_map]
      rfl
    _ = [definition.operation] := by rw [hdefinition, map_singleton]
  obtain ⟨j, hj⟩ := length_eq_one_iff.mp (by simpa using congrArg length hops)
  have hdefines : i ∈ f.definitions r.id := by
    refine mem_definitions.mpr ⟨hjoined ▸ mem_flatMap.mpr ⟨block, mem_of_getElem? hblock, mem_of_getElem? hi⟩, ?_⟩
    exact hop ▸ Occurrence.writes_iff.mp hwrites
  rw [hj] at hdefines
  exact ⟨block, i, hblock, hi, hop, hj.trans (congrArg (cons · []) (mem_singleton.mp hdefines).symm)⟩

/-- Behind its definition a register is not written in the block, and control does not enter there. -/
theorem quiet_of_filter (hg : FlowGraph.ofInstructions f.instructions = .ok g)
    (hblock : g.blocks[definition.block]? = some block) :
    f.Quiet r.id (g.start definition.block + definition.position)
      (g.start definition.block + block.instructions.length) := by
  intro place i hlow hhigh hi
  obtain ⟨k, rfl⟩ : ∃ k, place = g.start definition.block + k := ⟨place - g.start definition.block, by omega⟩
  have hbi : block.instructions[k]? = some i := by
    rw [← FlowGraph.getElem?_start hjoined hblock (by omega), hi]
  constructor
  · have hmem := mem_of_getElem? hblock
    rw [(FlowGraph.of_ofInstructions hg).1] at hmem
    refine Bool.eq_false_iff.mpr fun hlabel => ?_
    have := (BasicBlock.isBasic_of_mem_split BasicBlock.isOpen_nil hmem).1.begins k i hbi hlabel
    omega
  · intro w hw hid
    have hmem : ⟨definition.block, k, i.operation⟩ ∈ (occurrences g.blocks).filter (·.writes r) :=
      mem_filter.mpr ⟨mem_occurrences.mpr ⟨block, i, hblock, hbi, rfl⟩, Occurrence.writes_iff.mpr ⟨w, hw, hid⟩⟩
    rw [hdefinition, mem_singleton] at hmem
    have hposn : k = definition.position := congrArg Occurrence.position hmem
    omega

end

/-- A constant that classification gives a register stands for what its definition gives it. -/
theorem denotes_of_storageFor {all text v} (h : storageFor all r definition = .ok (.constant text))
    (hv : definition.operation.MayGive v) : Denotes r.type text definition.operation v := by
  unfold storageFor at h
  split at h
  · rename_i value dest hop
    obtain ⟨text', htext, h⟩ := bind_eq_ok.mp h
    cases h
    rw [hop] at hv ⊢
    obtain rfl := hv
    refine .number htext fun n hn hholds => ?_
    subst hn
    obtain ⟨_, htext', hread, -⟩ := scalarConstant_of_holds hholds
    have hsame : scalarConstant (.ofInt n) r.type = literal (.ofInt n) r.type := by
      cases htype : r.type <;> first | rfl | (rw [htype] at hholds; exact hholds.elim)
    cases (htext'.symm.trans hsame).trans htext
    exact hread
  · rename_i symbol dest hop
    cases h
    rw [hop] at hv ⊢
    obtain rfl := hv
    exact .address
  · have := Except.ok.inj h
    split at this <;> cases this

/-- What a register with a single definition is found to hold, the definition has given it. -/
theorem given_of_fetches {p : Program} (hm : m ∈ p.machines symbol args limit)
    (hf : m.active.procedure = f) (hfetches : m.Fetches r v) (hparam : r.id ∉ f.parameterIds)
    (hi : f.definitions r.id = [i]) : (∃ t ∈ i.operation.results, t.id = r.id) ∧ i.operation.MayGive v := by
  obtain ⟨_, -, -, hget⟩ := hfetches
  obtain ⟨_, _, -, -, -, hsteps⟩ := Program.mem_machines.mp hm
  obtain ⟨j, hj, t, ht, hid, hgives⟩ :=
    (hf ▸ Machine.supplied_of_steps hsteps r.id v (Activation.get_eq_ok.mp hget)).resolve_left hparam
  have hmem : j ∈ f.definitions r.id := mem_definitions.mpr ⟨hj, t, Operation.results_subset ht, hid⟩
  rw [hi, mem_singleton] at hmem
  exact hmem ▸ ⟨⟨t, ht, hid⟩, hgives⟩

theorem classify_reflects (hg : FlowGraph.ofInstructions f.instructions = .ok g)
    (hclassify : classify f g.blocks = .ok storages) : Reflects storages f g := by
  have hjoined : g.blocks.flatMap (·.instructions) = f.instructions := by
    rw [(FlowGraph.of_ofInstructions hg).1, BasicBlock.joined_split]
  have hsingle : ∀ {id storage}, storages.get? id = some storage → storage ≠ .slot → id ∉ f.parameterIds ∧
      ∃ t ∈ f.registers, t.id = id ∧ ∃ definition, (occurrences g.blocks).filter (·.writes t) = [definition] ∧
        storageFor (occurrences g.blocks) t definition = .ok storage := by
    intro _ _ hget hslot
    obtain ⟨t, ht, rfl, hstorage⟩ := classifyRegister_of_get? hclassify hget
    obtain ⟨hparameter, hdefinition⟩ := (classifyRegister_cases hstorage).resolve_left hslot
    refine ⟨?_, t, ht, rfl, hdefinition⟩
    simpa [Procedure.isParameterRegister, Procedure.parameterIds, Register.same] using hparameter
  constructor
  case single =>
    intro _ _ hget hslot
    obtain ⟨hparameter, t, -, rfl, _, hdefinition, -⟩ := hsingle hget hslot
    obtain ⟨_, i, -, -, -, hi⟩ := definitions_of_filter hjoined hdefinition
    exact ⟨hparameter, i, hi⟩
  case constant =>
    intro p _ _ _ m hm hf r v hfetches _ hget
    obtain ⟨hparameter, t, ht, hid, _, hdefinition, hstorage⟩ := hsingle hget (by simp)
    obtain ⟨_, i, -, -, hoperation, hi⟩ := definitions_of_filter hjoined hdefinition
    rw [hid] at hi
    obtain ⟨-, hgives⟩ := given_of_fetches hm hf hfetches hparameter hi
    exact ⟨i, hi, t, ht, hid, hoperation ▸ denotes_of_storageFor hstorage (hoperation ▸ hgives)⟩
  case value =>
    intro p _ _ _ m hm hf r v hfetches hget
    obtain ⟨hparameter, t, ht, hid, definition, hdefinition, hstorage⟩ := hsingle hget (by simp)
    obtain ⟨_, i, hblock, hdi, hoperation, hi⟩ := definitions_of_filter hjoined hdefinition
    have hquiet := quiet_of_filter hjoined hdefinition hg hblock
    rw [hid] at hi hquiet
    obtain ⟨hgiven, -⟩ := given_of_fetches hm hf hfetches hparameter hi
    obtain ⟨j, hj, hr, hv⟩ := hfetches
    have hplace : m.active.procedure.instructions[m.active.position]? = some j := hj
    rw [hf] at hplace
    obtain ⟨index, block', l, hblock', hl, hposition⟩ := FlowGraph.exists_block hjoined hplace
    have hfollows := follows_of_storageFor hstorage ⟨index, l, j.operation⟩
      (mem_occurrences.mpr ⟨block', j, hblock', hl, rfl⟩) (Occurrence.reads_iff.mpr ⟨r, hr, hid.symm⟩)
    simp only [Occurrence.follows, Bool.and_eq_true, beq_iff_eq, decide_eq_true_eq] at hfollows
    obtain ⟨rfl, hlt⟩ := hfollows
    obtain rfl := Option.some.inj (hblock'.symm.trans hblock)
    have hbound := (List.getElem?_eq_some_iff.mp hl).1
    have hkept := Machine.keptFrom_of_mem_machines hquiet hm hf (by omega) (by omega)
    rw [Activation.get_eq_ok.mp hv] at hkept
    exact ⟨i, hi, hgiven, definition.block, block', definition.position, l, hblock, hdi, hbound, hposition, hkept⟩

/-- Adds up the numbers below its parameter. -/
def triangle : Procedure :=
  let byte : Ty := .integer 8 false
  let n : Register := ⟨0, byte⟩
  let isZero : Register := ⟨1, .boolean⟩
  let one : Register := ⟨2, byte⟩
  let less : Register := ⟨3, byte⟩
  let rest : Register := ⟨4, byte⟩
  let total : Register := ⟨5, byte⟩
  { symbol := ⟨"M", "triangle", []⟩
    parameters := [⟨"n", n⟩]
    returnType := byte
    locals := []
    registers := [n, isZero, one, less, rest, total]
    instructions := [⟨.testZero n false isZero, ""⟩, ⟨.gotoIfFalse isZero "more", ""⟩, ⟨.ret (some n), ""⟩,
      ⟨.label "more", ""⟩, ⟨.loadImmediate 1 one, ""⟩, ⟨.binary .subtract n one less, ""⟩,
      ⟨.call (.function ⟨"M", "triangle", []⟩) [less] (some rest), ""⟩, ⟨.binary .add less rest total, ""⟩,
      ⟨.ret (some total), ""⟩]
    smcRequested := false
    isTailRecursive := false
    convention := .standard }

/-- What was computed before a call and is read behind it is a value still. -/
theorem triangle_reflects : ∃ g storages, FlowGraph.ofInstructions triangle.instructions = .ok g ∧
    classify triangle g.blocks = .ok storages ∧ Reflects storages triangle g ∧ [0, 1, 2, 3, 4, 5].map storages.get? =
      [some .slot, some .value, some (.constant "1"), some .value, some .value, some .value] :=
  ⟨_, _, rfl, rfl, classify_reflects rfl rfl, by decide⟩

end

end Llvm

end Retarget
