import Retarget.Graph.Blocks
import Retarget.Proofs.Run.Assigned

/-!
# Control flow along the graph

The blocks of a list of instructions are its pieces, cut where control can enter or leave. What a step of the
machine does with the active procedure is then told by the graph: it stays in the block, follows a connection,
leaves by an exit or runs past the end. The other way round, a connection stands for a step that some machine
takes, unless the last instruction of its block stops every machine (`ofInstructions_describes`).
-/
namespace Retarget

open Activation Assoc Checked List Machine Operation

/-- The operation hands control on, or back. -/
def Operation.IsTransfer (operation : Operation) : Prop :=
  (∃ name, operation.jumpTarget? = some name) ∨ ∃ r, operation = .ret r

/-- Instructions of known kinds whose labels have names of their own and whose jumps all lead to labels. -/
structure WellLabelled (is : List Instruction) : Prop where
  known : ∀ i ∈ is, ∀ node, i.operation ≠ .unknown node
  distinct : (is.filterMap (·.operation.labelName?)).Nodup
  named : ∀ i ∈ is, i.operation ≠ .label ""
  targets : ∀ i ∈ is, ∀ name, i.operation.jumpTarget? = some name → ∃ j ∈ is, j.operation = .label name

/-! ## Cutting into blocks -/

variable {is : List Instruction} {block : BasicBlock} {i : Instruction}

namespace BasicBlock

variable {gathered : List Instruction}

/-- A label stands at the head only, a jump or return at the end only. -/
structure IsBasic (is : List Instruction) : Prop where
  nonempty : is ≠ []
  begins : ∀ (k : Nat) (i : Instruction), is[k]? = some i → i.operation.isLabel = true → k = 0
  ends : ∀ (k : Nat) (i : Instruction), is[k]? = some i → i.operation.IsTransfer → k + 1 = is.length

/-- What is gathered for a block that is not finished: it may begin with a label, and has no jumps and returns. -/
structure IsOpen (is : List Instruction) : Prop where
  begins : ∀ (k : Nat) (i : Instruction), is[k]? = some i → i.operation.isLabel = true → k = 0
  goesOn : ∀ i ∈ is, ¬ i.operation.IsTransfer

theorem isLabel_of_begins {op : Operation} (h : op.blockRole = .begins) : op.isLabel = true ∧ ¬ op.IsTransfer := by
  cases op <;> simp_all [blockRole, isLabel, IsTransfer, jumpTarget?]

theorem not_isLabel_of_continues {op : Operation} (h : op.blockRole = .continues) :
    op.isLabel = false ∧ ¬ op.IsTransfer := by
  cases op <;> simp_all [blockRole, isLabel, IsTransfer, jumpTarget?]

theorem not_isLabel_of_ends {op : Operation} (h : op.blockRole = .ends) : op.isLabel = false := by
  cases op <;> simp_all [blockRole, isLabel]

theorem isOpen_nil : IsOpen [] := ⟨by simp, by simp⟩

theorem isOpen_label (h : i.operation.blockRole = .begins) : IsOpen [i] where
  begins := by
    intro k j hj _
    have hk := (List.getElem?_eq_some_iff.mp hj).1
    simpa using hk
  goesOn := by simpa using (isLabel_of_begins h).2

/-- An instruction behind others that is no label leaves the labels where they are. -/
theorem begins_append (h : IsOpen gathered) (hi : i.operation.isLabel = false) (k : Nat) (j : Instruction)
    (hj : (gathered ++ [i])[k]? = some j) (hlabel : j.operation.isLabel = true) : k = 0 := by
  rw [getElem?_append] at hj
  split at hj
  · exact h.begins k j hj hlabel
  · obtain rfl : j = i := mem_singleton.mp (mem_of_getElem? hj)
    rw [hi] at hlabel
    cases hlabel

theorem IsOpen.append (h : IsOpen gathered) (hi : i.operation.blockRole = .continues) :
    IsOpen (gathered ++ [i]) where
  begins := begins_append h (not_isLabel_of_continues hi).1
  goesOn := by
    intro j hj
    rcases mem_append.mp hj with hj | hj
    · exact h.goesOn j hj
    · rw [mem_singleton.mp hj]
      exact (not_isLabel_of_continues hi).2

theorem IsOpen.isBasic (h : IsOpen is) (hne : is ≠ []) : IsBasic is where
  nonempty := hne
  begins := h.begins
  ends := fun _ i hi ht => absurd ht (h.goesOn i (mem_of_getElem? hi))

theorem IsOpen.closed (h : IsOpen gathered) (hi : i.operation.blockRole = .ends) : IsBasic (gathered ++ [i]) where
  nonempty := by simp
  begins := begins_append h (not_isLabel_of_ends hi)
  ends := by
    intro k j hj ht
    rw [getElem?_append] at hj
    split at hj
    · exact absurd ht (h.goesOn j (mem_of_getElem? hj))
    · have hk := (List.getElem?_eq_some_iff.mp hj).1
      simp only [length_singleton, length_append] at hk ⊢
      omega

theorem mem_finish : block ∈ finish gathered ↔ gathered ≠ [] ∧ block = ofInstructions gathered := by
  cases gathered <;> simp [finish]

theorem flatMap_finish : (finish gathered).flatMap (·.instructions) = gathered := by
  cases gathered <;> simp [finish, ofInstructions]

/-- Nothing is lost, repeated or moved. -/
theorem flatMap_split (gathered is : List Instruction) :
    (split gathered is).flatMap (·.instructions) = gathered ++ is := by
  fun_induction split gathered is with
  | case1 gathered => rw [flatMap_finish, append_nil]
  | case2 gathered i rest role ih => simp [flatMap_finish, ih]
  | case3 gathered i rest role ih => simp [ih]
  | case4 gathered i rest role ih => simp [ofInstructions, ih]

theorem joined_split (is : List Instruction) : (split [] is).flatMap (·.instructions) = is := flatMap_split [] is

/-- Every piece is a block of its instructions. -/
theorem isBasic_of_mem_split (h : IsOpen gathered) (hb : block ∈ split gathered is) :
    IsBasic block.instructions ∧ block = ofInstructions block.instructions := by
  have hfinish : ∀ {gathered}, IsOpen gathered → block ∈ finish gathered →
      IsBasic block.instructions ∧ block = ofInstructions block.instructions := by
    intro _ h hb
    obtain ⟨hne, rfl⟩ := mem_finish.mp hb
    exact ⟨h.isBasic hne, rfl⟩
  fun_induction split gathered is with
  | case1 gathered => exact hfinish h hb
  | case2 gathered i rest role ih =>
    rcases mem_append.mp hb with hb | hb
    · exact hfinish h hb
    · exact ih (isOpen_label role) hb
  | case3 gathered i rest role ih => exact ih (h.append role) hb
  | case4 gathered i rest role ih =>
    rcases mem_cons.mp hb with rfl | hb
    · exact ⟨h.closed role, rfl⟩
    · exact ih isOpen_nil hb

theorem name_ofInstructions (is : List Instruction) :
    (ofInstructions is).name = is.head?.bind (·.operation.labelName?) := by
  rcases is with _ | ⟨⟨op, _⟩, _⟩
  · rfl
  · cases op <;> rfl

/-- The only label of a block is the one that names it. -/
theorem IsBasic.labels (h : IsBasic is) : is.filterMap (·.operation.labelName?) = (ofInstructions is).name.toList := by
  rw [name_ofInstructions]
  cases is with
  | nil => rfl
  | cons i rest =>
    have hrest : rest.filterMap (·.operation.labelName?) = [] := by
      rw [filterMap_eq_nil_iff]
      intro j hj
      obtain ⟨k, hk⟩ := mem_iff_getElem?.mp hj
      refine labelName?_of_not_isLabel (Bool.eq_false_iff.mpr fun hlabel => ?_)
      cases h.begins (k + 1) j hk hlabel
    simp only [filterMap_cons, hrest, head?_cons, Option.bind_some]
    cases i.operation.labelName? <;> rfl

end BasicBlock

/-! ## Blocks and places -/

namespace FlowGraph

variable {g : FlowGraph} {index : Nat}

def start (g : FlowGraph) (index : Nat) : Nat := ((g.blocks.take index).flatMap (·.instructions)).length

theorem start_succ (h : g.blocks[index]? = some block) :
    g.start (index + 1) = g.start index + block.instructions.length := by
  simp [start, take_add_one, h]

/-- The instructions of a block stand one behind the other from its first place on. -/
theorem getElem?_start (hjoined : g.blocks.flatMap (·.instructions) = is) (h : g.blocks[index]? = some block)
    (hk : k < block.instructions.length) : is[g.start index + k]? = block.instructions[k]? := by
  obtain ⟨hlt, rfl⟩ := List.getElem?_eq_some_iff.mp h
  rw [← hjoined]
  conv =>
    lhs
    rw [← take_append_drop index g.blocks, flatMap_append, drop_eq_getElem_cons hlt,
      flatMap_cons]
  rw [start, getElem?_append_right (Nat.le_add_right _ _), Nat.add_sub_cancel_left,
    getElem?_append_left hk]

/-- A block that nothing comes behind reaches to the end. -/
theorem start_length (hjoined : g.blocks.flatMap (·.instructions) = is) : g.start g.blocks.length = is.length := by
  rw [start, take_length, hjoined]

/-! ## Labels and connections -/

def named (blocks : List BasicBlock) : List (String × Nat) :=
  blocks.zipIdx.filterMap fun entry => entry.1.name.map (·, entry.2)

theorem mem_named {blocks name} :
    (name, index) ∈ named blocks ↔ ∃ block, blocks[index]? = some block ∧ block.name = some name := by
  simp [named, mem_filterMap, mem_zipIdx_iff_getElem?]

theorem keys_named (blocks : List BasicBlock) : (named blocks).map Prod.fst = blocks.filterMap (·.name) := by
  have hname : ∀ entry : BasicBlock × Nat,
      (entry.1.name.map (·, entry.2)).map Prod.fst = ((·.name) ∘ Prod.fst) entry := by
    intro entry
    cases hn : entry.1.name <;> simp [hn]
  rw [named, map_filterMap, filterMap_congr fun entry _ => hname entry, ← filterMap_map,
    zipIdx_map_fst]

/-- Names are entered in the order of the blocks. -/
theorem labelsOf_eq {blocks} (h : ∀ block ∈ blocks, block.name ≠ some "") :
    labelsOf blocks = ofPairs (named blocks) := by
  unfold labelsOf ofPairs named
  rw [foldl_filterMap]
  refine foldl_ext _ _ _ fun labels ⟨block, index⟩ hentry => ?_
  have hname := h block (fst_mem_of_mem_zipIdx hentry)
  dsimp only
  cases hn : block.name with
  | none => rfl
  | some =>
    rw [hn] at hname
    exact if_neg fun heq => hname (congrArg some heq)

/-- With names of their own, blocks are found by them. -/
theorem get?_labelsOf {blocks} (h : ∀ block ∈ blocks, block.name ≠ some "") (hd : (blocks.filterMap (·.name)).Nodup)
    {name} :
    (labelsOf blocks).get? name = some index ↔
      ∃ block, blocks[index]? = some block ∧ block.name = some name := by
  rw [labelsOf_eq h, ← mem_named]
  exact ⟨mem_of_get?_ofPairs, get?_ofPairs (keys_named blocks ▸ hd)⟩

/-- What a block's last operation says of the ways out of the block. -/
theorem exits_eq (h : is.getLast? = some i) :
    ∃ exit, BasicBlock.exits is = .ok ⟨i.operation.jumpTarget?, !i.operation.leaves, exit⟩ ∧
      (exit = true ↔ ∃ r, i.operation = .ret r) := by
  obtain ⟨op, _⟩ := i
  unfold BasicBlock.exits
  rw [h]
  cases op <;> simp [jumpTarget?, leaves]

/-- Where control can go behind the last operation of a block: to the block of the label that it jumps to, or to the
next block. -/
def Connects (blocks : List BasicBlock) (index : Nat) (operation : Operation) (target : Nat) : Prop :=
  (∃ name block, operation.jumpTarget? = some name ∧ blocks[target]? = some block ∧ block.name = some name) ∨
    operation.leaves = false ∧ target = index + 1 ∧ target < blocks.length

theorem connectionsFrom_eq {blocks} (index : Nat) (h : ∀ block ∈ blocks, block.name ≠ some "")
    (hd : (blocks.filterMap (·.name)).Nodup) {i} (hlast : block.instructions.getLast? = some i)
    (hjump : ∀ name, i.operation.jumpTarget? = some name → ∃ target ∈ blocks, target.name = some name) :
    ∃ connections, connectionsFrom (labelsOf blocks) blocks.length block index = .ok connections ∧
      ∀ c, c ∈ connections ↔ c.1 = index ∧ Connects blocks index i.operation c.2 := by
  obtain ⟨_, hexits, -⟩ := exits_eq hlast
  have hnext : ∀ c : Nat × Nat,
      (c ∈ if !i.operation.leaves && index + 1 < blocks.length then [(index, index + 1)] else []) ↔
        c.1 = index ∧ i.operation.leaves = false ∧ c.2 = index + 1 ∧ c.2 < blocks.length := by
    rintro ⟨_, _⟩
    cases i.operation.leaves
    · simp
      omega
    · simp
  unfold connectionsFrom
  rw [hexits]
  cases ht : i.operation.jumpTarget? with
  | none =>
    refine ⟨_, rfl, fun c => ?_⟩
    simp only [Connects, ht, reduceCtorEq, false_and, exists_false, false_or]
    exact hnext c
  | some name =>
    obtain ⟨target, hmem, hname⟩ := hjump name ht
    obtain ⟨k, hk⟩ := mem_iff_getElem?.mp hmem
    have hget := (get?_labelsOf h hd).mpr ⟨target, hk, hname⟩
    have hne : name ≠ "" := fun heq => h target hmem (hname.trans (congrArg some heq))
    refine ⟨(index, k) :: if !i.operation.leaves && index + 1 < blocks.length then [(index, index + 1)] else [],
      ?_, ?_⟩
    · simp only [bind, Except.bind, pure, Except.pure, hget]
      rfl
    · rintro ⟨_, t⟩
      have hfound : (∃ other block, some name = some other ∧ blocks[t]? = some block ∧ block.name = some other) ↔
          t = k := by
        constructor
        · rintro ⟨_, block, heq, hblock⟩
          cases heq
          have hget' := (get?_labelsOf h hd).mpr ⟨block, hblock⟩
          exact Option.some.inj (hget'.symm.trans hget)
        · rintro rfl
          exact ⟨name, target, rfl, hk, hname⟩
      rw [mem_cons, hnext, Prod.mk.injEq, Connects, ht, hfound, ← and_or_left]

/-- The blocks of well-labelled instructions are told apart by their names. -/
theorem names_split (h : WellLabelled is) :
    (∀ block ∈ BasicBlock.split [] is, block.name ≠ some "") ∧
      (BasicBlock.split [] is).filterMap (·.name) = is.filterMap (·.operation.labelName?) := by
  have hblock : ∀ block ∈ BasicBlock.split [] is,
      block.instructions.filterMap (·.operation.labelName?) = block.name.toList := by
    intro _ hb
    obtain ⟨hbasic, heq⟩ := BasicBlock.isBasic_of_mem_split BasicBlock.isOpen_nil hb
    rw [hbasic.labels, ← heq]
  constructor
  · intro block hb hname
    have hmem : "" ∈ block.instructions.filterMap (·.operation.labelName?) := by
      rw [hblock block hb, hname]
      exact mem_singleton.mpr rfl
    obtain ⟨i, hi, hlabel⟩ := mem_filterMap.mp hmem
    refine h.named i ?_ (eq_label hlabel)
    rw [← BasicBlock.joined_split is]
    exact mem_flatMap.mpr ⟨block, hb, hi⟩
  · conv => rhs; rw [← BasicBlock.joined_split is]
    rw [filterMap_flatMap, flatMap_congr hblock, filterMap_eq_flatMap_toList]

theorem exists_last (hb : block ∈ BasicBlock.split [] is) : ∃ last ∈ is, block.instructions.getLast? = some last := by
  have hlast := getLast?_eq_some_getLast
    (BasicBlock.isBasic_of_mem_split BasicBlock.isOpen_nil hb).1.nonempty
  have hmem := mem_flatMap.mpr ⟨block, hb, mem_of_getLast? hlast⟩
  rw [BasicBlock.joined_split] at hmem
  exact ⟨_, hmem, hlast⟩

/-- A jump leads to a label, which starts a block. -/
theorem exists_target (h : WellLabelled is) (hi : i ∈ is) (hjump : i.operation.jumpTarget? = some name) :
    ∃ target ∈ BasicBlock.split [] is, target.name = some name := by
  obtain ⟨j, hj, hlabel⟩ := h.targets i hi name hjump
  have hmem : name ∈ is.filterMap (·.operation.labelName?) := by
    refine mem_filterMap.mpr ⟨j, hj, ?_⟩
    rw [hlabel]
    rfl
  rw [← (names_split h).2] at hmem
  exact mem_filterMap.mp hmem

theorem known_eq_ok (h : WellLabelled is) : is.forM (·.operation.known "blockBehaviour") = .ok ⟨⟩ := by
  refine forM_eq_ok fun i hi => ?_
  have hi := h.known i hi
  unfold Operation.known
  split
  · rename_i node hnode
    exact absurd hnode (hi node)
  · rfl

theorem returns_iff (hlast : block.instructions.getLast? = some last) :
    returns block = true ↔ ∃ r, last.operation = .ret r := by
  obtain ⟨_, hexits, hexit⟩ := exits_eq hlast
  rw [← hexit, returns, hexits]

theorem mem_connections (h : WellLabelled is) {connections}
    (hc : (BasicBlock.split [] is).zipIdx.mapM (fun (block, index) =>
      connectionsFrom (labelsOf (BasicBlock.split [] is)) (BasicBlock.split [] is).length block index) =
        .ok connections) {i j} :
    (i, j) ∈ connections.flatten ↔ ∃ block last, (BasicBlock.split [] is)[i]? = some block ∧
      block.instructions.getLast? = some last ∧ Connects (BasicBlock.split [] is) i last.operation j := by
  obtain ⟨hnamed, hnames⟩ := names_split h
  rw [mem_flatten_of_mapM hc]
  constructor
  · rintro ⟨⟨block, index⟩, hentry, _, hcs, hmem⟩
    obtain ⟨last, hlastmem, hlast⟩ := exists_last (fst_mem_of_mem_zipIdx hentry)
    obtain ⟨_, hcs', hmem'⟩ := connectionsFrom_eq index hnamed (hnames ▸ h.distinct) hlast
      fun _ => exists_target h hlastmem
    cases hcs.symm.trans hcs'
    obtain ⟨rfl, hconnects⟩ := (hmem' _).mp hmem
    exact ⟨block, last, mk_mem_zipIdx_iff_getElem?.mp hentry, hlast, hconnects⟩
  · rintro ⟨block, _, hblock, hlast, hconnects⟩
    obtain ⟨_, hlastmem, hlast'⟩ := exists_last (mem_of_getElem? hblock)
    obtain rfl := Option.some.inj (hlast.symm.trans hlast')
    obtain ⟨cs, hcs, hmem⟩ := connectionsFrom_eq i hnamed (hnames ▸ h.distinct) hlast
      fun _ => exists_target h hlastmem
    exact ⟨(block, i), mk_mem_zipIdx_iff_getElem?.mpr hblock, cs, hcs, (hmem _).mpr ⟨rfl, hconnects⟩⟩

/-- The graph of instructions has their blocks, and their kinds are known. -/
theorem of_ofInstructions (h : ofInstructions is = .ok g) :
    g.blocks = BasicBlock.split [] is ∧ ∀ i ∈ is, ∀ node, i.operation ≠ .unknown node := by
  obtain ⟨_, hknown, h⟩ := bind_eq_ok.mp h
  obtain ⟨_, -, h⟩ := bind_eq_ok.mp h
  cases h
  refine ⟨rfl, fun i hi node hop => ?_⟩
  have hknown := forall_of_forM hknown i hi
  rw [hop] at hknown
  cases hknown

/-- The graph is that of the instructions, read off the last operations of its blocks. -/
structure IsGraphOf (g : FlowGraph) (is : List Instruction) : Prop where
  blocks : g.blocks = BasicBlock.split [] is
  connections : ∀ i j, (i, j) ∈ g.connections ↔ ∃ block last, g.blocks[i]? = some block ∧
    block.instructions.getLast? = some last ∧ Connects g.blocks i last.operation j
  exits : ∀ i, i ∈ g.exits ↔ ∃ block last r, g.blocks[i]? = some block ∧
    block.instructions.getLast? = some last ∧ last.operation = .ret r

theorem ofInstructions_isGraphOf (h : WellLabelled is) : ∃ g, ofInstructions is = .ok g ∧ g.IsGraphOf is := by
  obtain ⟨hnamed, hnames⟩ := names_split h
  have hfrom : ∀ entry ∈ (BasicBlock.split [] is).zipIdx, ∃ cs, connectionsFrom
      (labelsOf (BasicBlock.split [] is)) (BasicBlock.split [] is).length entry.1 entry.2 = .ok cs := by
    intro entry hentry
    obtain ⟨_, hlastmem, hlast⟩ := exists_last (fst_mem_of_mem_zipIdx hentry)
    obtain ⟨cs, hcs, -⟩ := connectionsFrom_eq entry.2 hnamed (hnames ▸ h.distinct) hlast
      fun _ => exists_target h hlastmem
    exact ⟨cs, hcs⟩
  obtain ⟨connections, hconnections⟩ := exists_mapM hfrom
  refine ⟨⟨BasicBlock.split [] is, labelsOf (BasicBlock.split [] is), connections.flatten,
    ((BasicBlock.split [] is).zipIdx.filter (returns ·.1)).map Prod.snd⟩, ?_, rfl,
    fun i j => mem_connections h hconnections, fun i => ?_⟩
  · unfold ofInstructions
    rw [known_eq_ok h]
    exact bind_eq_ok.mpr ⟨⟨⟩, rfl, bind_eq_ok.mpr ⟨connections, hconnections, rfl⟩⟩
  · simp only [List.mem_map, mem_filter, Prod.exists, exists_eq_right, mk_mem_zipIdx_iff_getElem?]
    constructor
    · rintro ⟨block, hblock, hreturns⟩
      obtain ⟨last, -, hlast⟩ := exists_last (mem_of_getElem? hblock)
      obtain ⟨r, hr⟩ := (returns_iff hlast).mp hreturns
      exact ⟨block, last, r, hblock, hlast, hr⟩
    · rintro ⟨block, _, r, hblock, hlast, hr⟩
      exact ⟨block, hblock, (returns_iff hlast).mpr ⟨r, hr⟩⟩

end FlowGraph

/-! ## Steps -/

/-- Where a step leaves a procedure: at a place of its code, or left behind by a return. -/
inductive Landing where
  | inside (position : Nat)
  | outside
deriving DecidableEq, Repr

namespace Machine

variable {p : Program} {m n : Machine} {l : Landing}

/-- The activation at a height of the stack, the outermost at zero. -/
def frame? (m : Machine) (height : Nat) : Option Activation :=
  (m.active :: m.callers.map (·.activation)).reverse[height]?

/-- Where the next step leaves the procedure that is active. One that calls another waits behind the call. -/
inductive Lands (p : Program) (m : Machine) : Landing → Prop
  | stays {n : Machine} {a : Activation} (step : m.advance p = .running n)
      (frame : n.frame? m.callers.length = some a) : Lands p m (.inside a.position)
  | returns {n : Machine} (step : m.advance p = .running n) (frame : n.frame? m.callers.length = none) :
      Lands p m .outside
  | ends {value : Option Value} {world : World} (step : m.advance p = .ended (.returned value world)) :
      Lands p m .outside

theorem frame?_active (w : World) (a : Activation) (callers : List Suspended) :
    frame? ⟨w, a, callers⟩ callers.length = some a := by
  simp [frame?]

theorem frame?_caller (w : World) (a : Activation) (s : Suspended) (callers : List Suspended) :
    frame? ⟨w, a, s :: callers⟩ callers.length = some s.activation := by
  simp [frame?]

theorem frame?_above (w : World) (a : Activation) (callers : List Suspended) :
    frame? ⟨w, a, callers⟩ (callers.length + 1) = none := by
  simp [frame?]

/-- A step goes on to the next place or to a label that the operation names, or it returns. -/
theorem Lands.cases (h : m.Lands p l) : ∃ i, m.next? = some i ∧
    (l = .inside (m.active.position + 1) ∧ i.operation.leaves = false ∨
      (∃ name pos, i.operation.jumpTarget? = some name ∧
        m.active.procedure.labelPlace? name = some pos ∧ l = .inside pos) ∨
      l = .outside ∧ ∃ r, i.operation = .ret r) := by
  have hreturns : ∀ {value}, m.reaction = .returns value → ∃ i, m.next? = some i ∧ ∃ r, i.operation = .ret r := by
    intro _ hreaction
    obtain ⟨i, hi, ⟨hop, -⟩ | ⟨r, v, hop, -⟩⟩ := returns_of_react hreaction
    · exact ⟨i, hi, none, hop⟩
    · exact ⟨i, hi, some r, hop⟩
  have hrunning : ∀ {n}, m.advance p = .running n → ∃ i, m.next? = some i ∧
      ((∃ a, n.frame? m.callers.length = some a ∧
        (a.position = m.active.position + 1 ∧ i.operation.leaves = false ∨
          ∃ name, i.operation.jumpTarget? = some name ∧
            m.active.procedure.labelPlace? name = some a.position)) ∨
        n.frame? m.callers.length = none ∧ ∃ r, i.operation = .ret r) := by
    intro n hn
    cases moves_of_running hn with
    | goesOn reaction =>
      obtain ⟨i, e, _, hi, hdoes, -, -, hgoes, rfl⟩ := goesOn_of_react reaction
      refine ⟨i, hi, Or.inl ⟨_, frame?_active .., ?_⟩⟩
      cases ht : e.target with
      | none =>
        rw [ht] at hgoes
        exact Or.inl ⟨hgoes, hdoes.stays ht⟩
      | some name =>
        rw [ht] at hgoes
        exact Or.inr ⟨name, hdoes.jumpTarget ht, hgoes⟩
    | calls reaction =>
      obtain ⟨i, _, hi, hop, -, rfl⟩ := calls_of_react reaction
      refine ⟨i, hi, Or.inl ⟨_, frame?_caller .., Or.inl ⟨rfl, ?_⟩⟩⟩
      rw [hop]
      rfl
    | returns reaction callers =>
      obtain ⟨i, hi, hop⟩ := hreturns reaction
      refine ⟨i, hi, Or.inr ⟨?_, hop⟩⟩
      rw [callers]
      exact frame?_above ..
  cases h with
  | stays step frame =>
    obtain ⟨i, hi, ⟨a, ha, hplace⟩ | ⟨hnone, -⟩⟩ := hrunning step
    · obtain rfl := Option.some.inj (frame.symm.trans ha)
      refine ⟨i, hi, ?_⟩
      rcases hplace with ⟨hposn, hleaves⟩ | ⟨name, hjump, hplace⟩
      · exact Or.inl ⟨congrArg Landing.inside hposn, hleaves⟩
      · exact Or.inr (Or.inl ⟨name, _, hjump, hplace, rfl⟩)
    · cases frame.symm.trans hnone
  | returns step frame =>
    obtain ⟨i, hi, ⟨a, ha, -⟩ | ⟨-, hop⟩⟩ := hrunning step
    · cases frame.symm.trans ha
    · exact ⟨i, hi, Or.inr (Or.inr ⟨rfl, hop⟩)⟩
  | ends step =>
    cases ends_of_ended step with
    | returned reaction =>
      obtain ⟨i, hi, hop⟩ := hreturns reaction
      exact ⟨i, hi, Or.inr (Or.inr ⟨rfl, hop⟩)⟩

end Machine

/-- Some machine that is at the place of the code lands so with its next step. -/
def Leads (is : List Instruction) (place : Nat) (l : Landing) : Prop :=
  ∃ (p : Program) (m : Machine), m.active.procedure.instructions = is ∧ m.active.position = place ∧ m.Lands p l

section
variable {place : Nat}

/-- A machine at a place of the code, with its registers, that is all alone. -/
def machineAt (is : List Instruction) (place : Nat) (registers : Assoc Numeral Value) : Machine :=
  ⟨⟨[], [], 0, 0, 0⟩, ⟨⟨default, [], .void, [], [], is, false, false, .standard⟩, place, registers⟩, []⟩

theorem leads_of_does (regs : Assoc Numeral Value) {e pos} (hi : is[place]? = some i)
    (hdoes : Does (machineAt is place regs).active.get [] i.operation e)
    (hgoes : (machineAt is place regs).active.procedure.GoesTo (place + 1) e.target pos) :
    Leads is place (.inside pos) := by
  have hreact := react_of_does (a := (machineAt is place regs).active) hi hdoes hgoes
  have hadvance : (machineAt is place regs).advance ⟨"", [], [], []⟩ = _ := advance_of_goesOn hreact
  exact ⟨_, machineAt is place regs, rfl, rfl, .stays hadvance (Machine.frame?_active ..)⟩

/-- Wherever there is a return, a machine returns. -/
theorem leads_of_ret (hi : is[place]? = some i) (hop : i.operation = .ret reg) : Leads is place .outside := by
  have hreturns : ∃ regs value, (machineAt is place regs).reaction = .returns value := by
    cases reg with
    | none => exact ⟨[], none, react_of_returns (a := (machineAt is place []).active) hi (by rw [hop]; rfl)⟩
    | some r =>
      refine ⟨[(r.id, .number 0)], some (.number 0),
        react_of_returns (a := (machineAt is place [(r.id, .number 0)]).active) hi ?_⟩
      rw [hop]
      simp [outcome, reading, Activation.get, machineAt, get?, pure, Except.pure,
        Machine.returned]
  obtain ⟨regs, _, hreaction⟩ := hreturns
  exact ⟨⟨"", [], [], []⟩, machineAt is place regs, rfl, rfl,
    .ends (advance_of_returns_nil hreaction rfl)⟩

/-- A jump or branch to a label is taken by some machine. -/
theorem leads_of_jump {name pos} (hi : is[place]? = some i) (hjump : i.operation.jumpTarget? = some name)
    (hplace : is.findIdx? (·.operation.labels name) = some pos) : Leads is place (.inside pos) := by
  obtain ⟨op, _⟩ := i
  cases op with
  | goto =>
    cases hjump
    exact leads_of_does [] hi .goto hplace
  | gotoIfFalse cond =>
    cases hjump
    refine leads_of_does [(cond.id, .number 0)] hi (.gotoIfFalse (x := 0) ?_) hplace
    exact get_eq_ok.mpr (by simp [machineAt, get?])
  | _ => cases hjump

/-- A branch is passed by some machine. -/
theorem leads_past_branch {cond name} (hi : is[place]? = some i) (hop : i.operation = .gotoIfFalse cond name) :
    Leads is place (.inside (place + 1)) := by
  obtain ⟨_, _⟩ := i
  obtain rfl := hop
  refine leads_of_does [(cond.id, .number 1)] hi (.gotoIfFalse (x := 1) ?_) rfl
  exact get_eq_ok.mpr (by simp [machineAt, get?])

/-- An operation that may go on to the next place does so in some machine, or stops every machine. -/
theorem leads_past (hi : is[place]? = some i) (hleaves : i.operation.leaves = false) :
    Leads is place (.inside (place + 1)) ∨ ∀ l, ¬ Leads is place l := by
  cases hjump : i.operation.jumpTarget? with
  | some name =>
    -- a jump that may go on is a branch
    obtain ⟨cond, hop⟩ : ∃ cond, i.operation = .gotoIfFalse cond name := by
      cases hop : i.operation <;> simp_all [jumpTarget?, leaves]
    exact Or.inl (leads_past_branch hi hop)
  | none =>
    refine Classical.or_iff_not_imp_right.mpr fun hsome => ?_
    obtain ⟨l, hl⟩ := not_forall_not.mp hsome
    obtain ⟨p, m, hcode, hposn, hlands⟩ := id hl
    obtain ⟨j, hj, hcases⟩ := hlands.cases
    obtain rfl : j = i := by
      rw [← hcode, ← hposn] at hi
      exact Option.some.inj (hj.symm.trans hi)
    rcases hcases with ⟨rfl, -⟩ | ⟨_, _, hname, -, -⟩ | ⟨-, r, hret⟩
    · exact hposn ▸ hl
    · cases hjump.symm.trans hname
    · rw [hret] at hleaves
      cases hleaves

/-- A step of a register that is no number stops every machine. -/
theorem not_leads_step (hi : is[place]? = some ⟨.step direction reg, why⟩)
    (htype : reg.type.isNumeric = false) (l : Landing) : ¬ Leads is place l := by
  rintro ⟨p, m, hcode, hposn, hlands⟩
  rw [← hcode, ← hposn] at hi
  have houtcome : ∃ stop, outcome m.active.get m.world.memory (.step direction reg) = .stops [] stop := by
    simp only [outcome, htype]
    cases reg.type.text.step with
    | error stop => exact ⟨stop, rfl⟩
    | ok => exact ⟨_, rfl⟩
  obtain ⟨stop, hstop⟩ := houtcome
  obtain ⟨w, hadvance, -⟩ := advance_of_stops (p := p) (react_of_stops (a := m.active) hi hstop)
  cases hlands with
  | stays step | returns step => cases hadvance.symm.trans step
  | ends step =>
    rw [hadvance] at step
    cases stop <;> cases step

end

namespace FlowGraph

variable {g : FlowGraph} {index k : Nat} {l : Landing}

/-- What the graph tells of a step from the instruction of that number in a block. -/
inductive Allows (g : FlowGraph) (index : Nat) (block : BasicBlock) (k : Nat) : Landing → Prop
  /-- To the next instruction of the block. -/
  | within (more : k + 1 < block.instructions.length) : Allows g index block k (.inside (g.start index + k + 1))
  /-- From the last instruction to the first one of a block. -/
  | along {target : Nat} (last : k + 1 = block.instructions.length) (connection : (index, target) ∈ g.connections)
      (exists_target : target < g.blocks.length) : Allows g index block k (.inside (g.start target))
  | exit (last : k + 1 = block.instructions.length) (exit : index ∈ g.exits) : Allows g index block k .outside
  /-- From the end of the last block past all instructions. -/
  | past (last : k + 1 = block.instructions.length) (final : index + 1 = g.blocks.length) :
      Allows g index block k (.inside (g.blocks.flatMap (·.instructions)).length)

/-- The graph is one of the instructions, and tells where their steps lead. -/
structure Describes (g : FlowGraph) (is : List Instruction) : Prop where
  nonempty : ∀ block ∈ g.blocks, block.instructions ≠ []
  joined : g.blocks.flatMap (·.instructions) = is
  begins : ∀ block ∈ g.blocks, ∀ (k : Nat) (i : Instruction), block.instructions[k]? = some i →
    i.operation.isLabel = true → k = 0
  ends : ∀ block ∈ g.blocks, ∀ (k : Nat) (i : Instruction), block.instructions[k]? = some i →
    i.operation.IsTransfer → k + 1 = block.instructions.length
  steps : ∀ (index : Nat) (block : BasicBlock) (k : Nat) (l : Landing), g.blocks[index]? = some block →
    k < block.instructions.length → Leads is (g.start index + k) l → g.Allows index block k l
  /-- Behind a connection stands a step, unless no machine gets past the end of the block. -/
  connections : ∀ source target, (source, target) ∈ g.connections → ∃ (block : BasicBlock) (k : Nat),
    g.blocks[source]? = some block ∧ k + 1 = block.instructions.length ∧
      (Leads is (g.start source + k) (.inside (g.start target)) ∨ ∀ l, ¬ Leads is (g.start source + k) l)
  exits : ∀ index ∈ g.exits, ∃ (block : BasicBlock) (k : Nat), g.blocks[index]? = some block ∧
    k + 1 = block.instructions.length ∧ Leads is (g.start index + k) .outside

namespace IsGraphOf

theorem joined (hg : g.IsGraphOf is) : g.blocks.flatMap (·.instructions) = is := by
  rw [hg.blocks, BasicBlock.joined_split]

theorem isBasic (hg : g.IsGraphOf is) (hb : block ∈ g.blocks) :
    BasicBlock.IsBasic block.instructions ∧ block = BasicBlock.ofInstructions block.instructions :=
  BasicBlock.isBasic_of_mem_split BasicBlock.isOpen_nil (hg.blocks ▸ hb)

/-- A label's place is the start of the block that it names. -/
theorem findIdx?_label (hg : g.IsGraphOf is) (h : WellLabelled is) (hblock : g.blocks[index]? = some block)
    (hname : block.name = some name) : is.findIdx? (·.operation.labels name) = some (g.start index) := by
  obtain ⟨_, heq⟩ := hg.isBasic (mem_of_getElem? hblock)
  rw [heq, BasicBlock.name_ofInstructions] at hname
  obtain ⟨i, hi, hlabel⟩ := Option.bind_eq_some_iff.mp hname
  rw [head?_eq_getElem?] at hi
  have hplace := getElem?_start hg.joined hblock (List.getElem?_eq_some_iff.mp hi).1
  exact labelPlace?_of_nodup (f := (machineAt is 0 []).active.procedure) h.distinct (hplace.trans hi)
    (eq_label hlabel)

theorem getElem?_last (hk : k + 1 = block.instructions.length) :
    block.instructions.getLast? = some last ↔ block.instructions[k]? = some last := by
  rw [getLast?_eq_getElem?, ← hk, Nat.add_sub_cancel]

/-- Every step is one that the graph tells of. -/
theorem allows (hg : g.IsGraphOf is) (h : WellLabelled is) (hblock : g.blocks[index]? = some block)
    (hk : k < block.instructions.length) (hleads : Leads is (g.start index + k) l) : g.Allows index block k l := by
  obtain ⟨p, m, hcode, hposn, hlands⟩ := hleads
  obtain ⟨i, hi, hcases⟩ := hlands.cases
  have hbi : block.instructions[k]? = some i := by
    rw [← getElem?_start hg.joined hblock hk, ← hcode, ← hposn]
    exact hi
  have hlast : i.operation.IsTransfer → k + 1 = block.instructions.length :=
    (hg.isBasic (mem_of_getElem? hblock)).1.ends k i hbi
  rcases hcases with ⟨rfl, hleaves⟩ | ⟨name, _, hjump, hplace, rfl⟩ | ⟨rfl, r, hret⟩
  · rw [hposn]
    by_cases hmore : k + 1 < block.instructions.length
    · exact .within hmore
    · have hk : k + 1 = block.instructions.length := by omega
      have hstart : g.start index + k + 1 = g.start (index + 1) := by rw [start_succ hblock, ← hk, Nat.add_assoc]
      have hindex := (List.getElem?_eq_some_iff.mp hblock).1
      rw [hstart]
      by_cases hnext : index + 1 < g.blocks.length
      · refine .along hk ((hg.connections _ _).mpr ⟨block, i, hblock, (getElem?_last hk).mpr hbi, ?_⟩) hnext
        exact Or.inr ⟨hleaves, rfl, hnext⟩
      · have hfinal : index + 1 = g.blocks.length := by omega
        rw [hfinal, start_length rfl]
        exact .past hk hfinal
  · have hk := hlast (Or.inl ⟨name, hjump⟩)
    have hmem : i ∈ is := hcode ▸ mem_of_getElem? hi
    obtain ⟨target, htarget, hname⟩ := exists_target h hmem hjump
    obtain ⟨t, ht⟩ := mem_iff_getElem?.mp (hg.blocks ▸ htarget)
    have hstart := hg.findIdx?_label h ht hname
    rw [Procedure.labelPlace?, hcode, hstart] at hplace
    obtain rfl := Option.some.inj hplace
    refine .along hk ((hg.connections _ _).mpr ⟨block, i, hblock, (getElem?_last hk).mpr hbi, ?_⟩)
      (List.getElem?_eq_some_iff.mp ht).1
    exact Or.inl ⟨name, target, hjump, ht, hname⟩
  · have hk := hlast (Or.inr ⟨r, hret⟩)
    exact .exit hk ((hg.exits _).mpr ⟨block, i, r, hblock, (getElem?_last hk).mpr hbi, hret⟩)

theorem exists_last (hg : g.IsGraphOf is) (hblock : g.blocks[index]? = some block)
    (hlast : block.instructions.getLast? = some last) :
    ∃ k, k + 1 = block.instructions.length ∧ is[g.start index + k]? = some last := by
  have hne := (hg.isBasic (mem_of_getElem? hblock)).1.nonempty
  have hpos := length_pos_iff.mpr hne
  obtain ⟨k, hk⟩ : ∃ k, k + 1 = block.instructions.length := ⟨block.instructions.length - 1, by omega⟩
  exact ⟨k, hk, (getElem?_start hg.joined hblock (by omega)).trans ((getElem?_last hk).mp hlast)⟩

theorem leads_of_connection (hg : g.IsGraphOf is) (h : WellLabelled is) {source target}
    (hmem : (source, target) ∈ g.connections) : ∃ (block : BasicBlock) (k : Nat), g.blocks[source]? = some block ∧
      k + 1 = block.instructions.length ∧
      (Leads is (g.start source + k) (.inside (g.start target)) ∨ ∀ l, ¬ Leads is (g.start source + k) l) := by
  obtain ⟨block, _, hblock, hlast, hconnects⟩ := (hg.connections _ _).mp hmem
  obtain ⟨k, hk, hplace⟩ := hg.exists_last hblock hlast
  refine ⟨block, k, hblock, hk, ?_⟩
  rcases hconnects with ⟨_, _, hjump, hother, hname⟩ | ⟨hleaves, rfl, _⟩
  · exact Or.inl (leads_of_jump hplace hjump (hg.findIdx?_label h hother hname))
  · have hstart : g.start (source + 1) = g.start source + k + 1 := by rw [start_succ hblock, ← hk, Nat.add_assoc]
    rw [hstart]
    exact leads_past hplace hleaves

theorem leads_of_exit (hg : g.IsGraphOf is) (hmem : index ∈ g.exits) : ∃ (block : BasicBlock) (k : Nat),
    g.blocks[index]? = some block ∧ k + 1 = block.instructions.length ∧ Leads is (g.start index + k) .outside := by
  obtain ⟨block, _, r, hblock, hlast, hret⟩ := (hg.exits _).mp hmem
  obtain ⟨k, hk, hplace⟩ := hg.exists_last hblock hlast
  exact ⟨block, k, hblock, hk, leads_of_ret hplace hret⟩

end IsGraphOf

/-- The graph of well-labelled instructions describes all steps of all machines that execute them. -/
theorem ofInstructions_describes (h : WellLabelled is) : ∃ g, ofInstructions is = .ok g ∧ g.Describes is := by
  obtain ⟨g, hg, hgraph⟩ := ofInstructions_isGraphOf h
  exact ⟨g, hg, {
    nonempty := fun block hb => (hgraph.isBasic hb).1.nonempty
    joined := hgraph.joined
    begins := fun block hb => (hgraph.isBasic hb).1.begins
    ends := fun block hb => (hgraph.isBasic hb).1.ends
    steps := fun index block k l hblock hk => hgraph.allows h hblock hk
    connections := fun source target => hgraph.leads_of_connection h
    exits := fun index => hgraph.leads_of_exit }⟩

/-- Counts a register down to zero and returns it. -/
def countdown : List Instruction :=
  let r : Register := ⟨1, .integer 8 false⟩
  [⟨.label "loop", ""⟩, ⟨.gotoIfFalse r "end", ""⟩, ⟨.step .decrement r, ""⟩, ⟨.goto "loop", ""⟩, ⟨.label "end", ""⟩,
    ⟨.ret (some r), ""⟩]

theorem countdown_describes :
    WellLabelled countdown ∧ ∃ g, ofInstructions countdown = .ok g ∧ g.Describes countdown := by
  have h : WellLabelled countdown :=
    ⟨by simp [countdown], by decide, by decide, by simp [countdown, Operation.jumpTarget?]⟩
  exact ⟨h, ofInstructions_describes h⟩

/-- Adds one to a truth value in front of a label. -/
def booleanStep : List Instruction := [⟨.step .increment ⟨1, .boolean⟩, ""⟩, ⟨.label "end", ""⟩]

/-- There is a connection that no step stands behind: truth values cannot be added to. -/
theorem booleanStep_connection_not_led : WellLabelled booleanStep ∧ ∃ (g : FlowGraph) (block : BasicBlock),
    ofInstructions booleanStep = .ok g ∧ (0, 1) ∈ g.connections ∧ g.blocks[0]? = some block ∧
      block.instructions.length = 1 ∧ ¬ ∃ l, Leads booleanStep (g.start 0 + 0) l := by
  refine ⟨⟨by simp [booleanStep], by decide, by decide, by simp [booleanStep, Operation.jumpTarget?]⟩, _, _, rfl,
    by decide, rfl, rfl, fun ⟨l, hl⟩ => ?_⟩
  exact not_leads_step rfl rfl l hl

end FlowGraph

end Retarget
