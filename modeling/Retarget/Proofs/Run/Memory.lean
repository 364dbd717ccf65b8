import Retarget.Proofs.Assoc
import Retarget.Proofs.Code.Consistent
import Retarget.Proofs.Run.Arithmetic

/-!
# Memory that keeps to its types

If no two blocks have one name, memory starts out with values of the right types in all variables and
string records. Reading and writing at addresses that fit their types keeps it so, and finds a cell
wherever it does not fail.
-/
namespace Retarget

open Assoc List Number

namespace Block

/-- All that the block holds are cells that fit the type. -/
structure Holds (p : Program) (type : Ty) (b : Block) : Prop where
  between : b.between = []
  room : b.room = 0
  cells : ∀ v ∈ b.cells, p.CellFits type v

variable {p : Program} {type : Ty} {b : Block} {offset : Number}

theorem holds_ofCells {cells} (h : ∀ v ∈ cells, p.CellFits type v) : (ofCells cells).Holds p type :=
  ⟨rfl, rfl, h⟩

/-- An offset inside a block that has room for its cells only names one of them. -/
theorem Holds.index (h : b.Holds p type) (ho : offset.IsPlace) (hin : b.isOutside offset = false) :
    ∃ i, offset.toIndex? = some i ∧ i < b.cells.length := by
  rw [isOutside, h.room, Bool.or_eq_false_iff, Bool.and_eq_false_iff] at hin
  match offset with
  | .dyadic a scale =>
    obtain rfl : scale = 0 := ho
    rw [zero_eq, ofNat, lt_dyadic, le_dyadic, le_dyadic,
      decide_eq_false_iff_not, decide_eq_false_iff_not, decide_eq_false_iff_not] at hin
    have hpos : 0 ≤ a := by omega
    refine ⟨a.toNat, if_pos hpos, ?_⟩
    omega
  | .infinite true => exact absurd hin.1 (by decide)
  | .infinite false =>
    rcases hin.2 with h | h
    · simp [le, lt, ofNat] at h
    · exact absurd h (by decide)

theorem Holds.get? (h : b.Holds p type) (ho : offset.IsPlace) (hin : b.isOutside offset = false) :
    ∃ v, b.get? offset = some v ∧ p.CellFits type v := by
  obtain ⟨i, hi, hlt⟩ := h.index ho hin
  refine ⟨b.cells[i], ?_, h.cells _ (getElem_mem hlt)⟩
  simp only [Block.get?, hi, Option.bind_some, getElem?_eq_getElem hlt]

theorem Holds.set (h : b.Holds p type) (ho : offset.IsPlace) (hin : b.isOutside offset = false)
    (hv : p.CellFits type v) : (b.set offset v).Holds p type := by
  obtain ⟨i, hi, hlt⟩ := h.index ho hin
  have hcell : b.cellAt? offset = some i := by simp [cellAt?, hi, hlt]
  simp only [Block.set, hcell]
  refine ⟨h.between, h.room, fun w hw => ?_⟩
  rcases mem_or_eq_of_mem_set hw with hw | rfl
  · exact h.cells w hw
  · exact hv

end Block

namespace Memory

/-- Every variable and every string record is there, with values of its type. -/
def Sound (p : Program) (memory : Memory) : Prop :=
  ∀ type block, p.Places type block → ∃ b, memory.get? block = some b ∧ b.Holds p type

variable {p : Program} {memory memory' : Memory} {type : Ty} {block : String} {offset : Number}

theorem block_eq_ok (h : memory.block block offset = .ok b) :
    memory.find? block = some b ∧ b.isOutside offset = false := by
  unfold Memory.block at h
  split at h
  · cases h
  · rename_i b' hb
    split at h
    · cases h
    · rename_i hin
      cases h
      exact ⟨hb, by simpa using hin⟩

theorem find?_of_get? (h : memory.get? block = some b) : memory.find? block = some b := by
  simp only [find?, h]
  rfl

theorem Sound.read (h : memory.Sound p) (hp : p.Places type block) (ho : offset.IsPlace)
    (hr : memory.read block offset = .ok v) : ∃ w, v = some w ∧ p.CellFits type w := by
  obtain ⟨b, hb, hholds⟩ := h type block hp
  cases hblock : memory.block block offset with
  | error =>
    rw [Memory.read, hblock] at hr
    cases hr
  | ok =>
    obtain ⟨hfind, hin⟩ := block_eq_ok hblock
    rw [find?_of_get? hb] at hfind
    cases hfind
    rw [Memory.read, hblock] at hr
    cases hr
    exact hholds.get? ho hin

/-- Writing keeps memory to its types if blocks are told apart by their names. -/
theorem Sound.write (hn : ∀ {type type' block}, p.Places type block → p.Places type' block → type = type')
    (h : memory.Sound p) (hp : p.Places type block) (ho : offset.IsPlace) (hv : p.CellFits type v)
    (hw : memory.write block offset v = .ok memory') : memory'.Sound p := by
  obtain ⟨b, hb, hholds⟩ := h type block hp
  cases hblock : memory.block block offset with
  | error =>
    rw [Memory.write, hblock] at hw
    cases hw
  | ok b' =>
    obtain ⟨hfind, hin⟩ := block_eq_ok hblock
    rw [find?_of_get? hb] at hfind
    cases hfind
    rw [Memory.write, hblock] at hw
    cases hw
    intro type' block' hp'
    by_cases hname : block = block'
    · subst hname
      obtain rfl := hn hp hp'
      exact ⟨b.set offset v, by rw [get?_set, if_pos rfl], hholds.set ho hin hv⟩
    · obtain ⟨b', hb', hholds'⟩ := h type' block' hp'
      exact ⟨b', by rw [get?_set, if_neg hname, hb'], hholds'⟩

end Memory

/-! ## Initial memory -/

namespace Program

variable {p : Program}

def initialBlocks (p : Program) : List (String × Block) :=
  (p.globals.map fun g => (g.qualifiedName, .ofCells g.cells)) ++
    p.literals.flatMap fun s => [(s.name, .ofCells s.cells), (s.dataName, .ofCells s.dataCells)]

theorem initialMemory_eq (p : Program) : p.initialMemory = ofPairs p.initialBlocks := by
  simp only [initialMemory, ofPairs, initialBlocks, foldl_append, foldl_map,
    foldl_flatMap, foldl_cons, foldl_nil]

theorem map_fst_initialBlocks (p : Program) : p.initialBlocks.map Prod.fst = p.blockNames := by
  simp [initialBlocks, blockNames, map_flatMap, Function.comp_def]

/-- A block has cells of one type. -/
theorem Places.unique (hn : p.blockNames.Nodup) (h : p.Places type block) (h' : p.Places type' block) :
    type = type' := by
  rw [blockNames, nodup_append] at hn
  obtain ⟨hglobals, -, hdisjoint⟩ := hn
  have hliteral : ∀ {s : StringLiteral}, s ∈ p.literals →
      s.name ∈ p.literals.flatMap fun s => [s.name, s.dataName] :=
    fun hs => mem_flatMap.mpr ⟨_, hs, .head _⟩
  rcases h with ⟨g, hg, hname, rfl⟩ | ⟨rfl, s, hs, hname⟩ <;>
    rcases h' with ⟨g', hg', hname', rfl⟩ | ⟨rfl, s', hs', hname'⟩
  · have hgg : g = g' := inj_on_of_nodup_map hglobals hg hg' (hname.trans hname'.symm)
    rw [hgg]
  · exact absurd (hname.trans hname'.symm) (hdisjoint _ (mem_map_of_mem hg) _ (hliteral hs'))
  · exact absurd (hname'.trans hname.symm) (hdisjoint _ (mem_map_of_mem hg') _ (hliteral hs))
  · rfl

theorem cellFits_zero {type} (h : type.IsRegister) : p.CellFits type (.number 0) := by
  match type with
  | .pointer inner => exact rfl
  | .integer bits signed => exact ⟨0, rfl, Ty.holds_zero h ⟨bits, rfl⟩⟩
  | .fixed e => exact ⟨0, rfl, Ty.holds_zero trivial ⟨e.usedBits, rfl⟩⟩
  | .boolean => exact ⟨0, rfl, Or.inl rfl⟩

/-- A variable starts out with values of its type. -/
theorem cellFits_cells {g : GlobalVariable} (h : g.Consistent p) : ∀ v ∈ g.cells, p.CellFits g.type.cell v := by
  intro v hv
  have hzero := cellFits_zero (p := p) h.type
  unfold GlobalVariable.cells at hv
  split at hv
  · rename_i of length values htype hinit
    have hvalues := h.initializer _ hinit
    rw [overwrite, mem_append] at hv
    rcases hv with hv | hv
    · obtain ⟨x, hx, rfl⟩ := mem_map.mp hv
      exact hvalues x hx
    · rw [eq_of_mem_replicate (mem_of_mem_drop hv)]
      exact hzero
  · rw [eq_of_mem_replicate hv]
    exact hzero
  · rename_i x hinit _
    rw [mem_singleton] at hv
    subst hv
    exact h.initializer _ hinit x (.head _)
  · rw [mem_singleton] at hv
    subst hv
    exact hzero

/-- The record of a string literal. -/
theorem cellFits_record (s : StringLiteral) : ∀ v ∈ s.cells, p.CellFits .string v := by
  intro v hv
  simp only [StringLiteral.cells, mem_cons, not_mem_nil, or_false] at hv
  rcases hv with rfl | rfl
  · exact ⟨_, rfl⟩
  · trivial

theorem initialMemory_sound (hg : ∀ g ∈ p.globals, g.Consistent p) (hn : p.blockNames.Nodup) :
    p.initialMemory.Sound p := by
  rw [← map_fst_initialBlocks] at hn
  rw [initialMemory_eq]
  rintro type block (⟨g, hmem, rfl, rfl⟩ | ⟨rfl, s, hs, rfl⟩)
  · refine ⟨.ofCells g.cells, get?_ofPairs hn ?_, Block.holds_ofCells (cellFits_cells (hg g hmem))⟩
    exact mem_append_left _ (mem_map_of_mem hmem)
  · refine ⟨.ofCells s.cells, get?_ofPairs hn ?_, Block.holds_ofCells (cellFits_record s)⟩
    exact mem_append_right _ (mem_flatMap.mpr ⟨s, hs, .head _⟩)

end Program

end Retarget
