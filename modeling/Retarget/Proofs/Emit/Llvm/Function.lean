import Retarget.Proofs.Emit.Llvm.Blocks
import Retarget.Proofs.Number.Text
import Retarget.Proofs.Optimize.Assigned

/-!
# Emitted functions

A function has an entry block, which makes slots, stores the parameters into theirs and goes on to the code. The
names that it defines are all different, also as texts, and it uses a name only where it is defined.
-/
namespace Retarget

open BasicBlock Char Checked FlowGraph List Option

namespace Llvm

/-! ## Texts of names -/

namespace Name

/-- Registers in the name are numbered by natural numbers. -/
def IsNumbered : Name → Prop
  | .temporary _ => True
  | .value register | .slot register | .argument register => ∃ n, register = .natural n

/-- The parts of a name's text: its letter, its number and what kind of name it is. -/
def spelling : Name → Char × Numeral × List Char
  | .temporary number => ('t', .natural number, [])
  | .value register => ('r', register, [])
  | .slot register => ('r', register, ".addr".toList)
  | .argument register => ('r', register, ".arg".toList)

theorem spelling_injective {name name' : Name} (h : name.spelling = name'.spelling) : name = name' := by
  cases name <;> cases name' <;> simp_all [spelling]

theorem toList_text (name : Name) :
    name.text.toList = '%' :: name.spelling.1 :: (name.spelling.2.1.text.toList ++ name.spelling.2.2) := by
  cases name <;> simp [text, spelling, toString, String.toList_append, Numeral.text]

theorem IsNumbered.exists_digits {name : Name} (h : name.IsNumbered) :
    ∃ n, name.spelling.2.1 = .natural n ∧ name.spelling.2.1.text.toList = Nat.toDigits 10 n := by
  have hnatural : ∃ n, name.spelling.2.1 = .natural n := by
    cases name with
    | temporary number => exact ⟨number, rfl⟩
    | value | slot | argument => exact h
  obtain ⟨n, hn⟩ := hnatural
  exact ⟨n, hn, by rw [hn, Numeral.text, Nat.toList_repr]⟩

/-- Digits end where a text goes on without one. -/
theorem eq_of_digits_append {suffix suffix'} (h : suffix.takeWhile isDigit = [])
    (h' : suffix'.takeWhile isDigit = []) (heq : Nat.toDigits 10 n ++ suffix = Nat.toDigits 10 m ++ suffix') :
    n = m ∧ suffix = suffix' := by
  have hdigits : ∀ {n suffix}, suffix.takeWhile isDigit = [] →
      (Nat.toDigits 10 n ++ suffix).takeWhile isDigit = Nat.toDigits 10 n := by
    intro n _ hsuffix
    rw [takeWhile_append_of_pos fun c hc => Nat.isDigit_of_mem_toDigits (by decide) (by decide) hc, hsuffix,
      append_nil]
  have hsame : Nat.toDigits 10 n = Nat.toDigits 10 m := by rw [← hdigits h, heq, hdigits h']
  rw [hsame] at heq
  exact ⟨Decimal.toDigits_injective hsame, append_cancel_left heq⟩

theorem takeWhile_spelling (name : Name) : name.spelling.2.2.takeWhile isDigit = [] := by
  cases name <;> rfl

theorem text_injective {name name' : Name} (h : name.IsNumbered) (h' : name'.IsNumbered)
    (heq : name.text = name'.text) :
    name = name' := by
  obtain ⟨n, hn, hdigits⟩ := h.exists_digits
  obtain ⟨m, hm, hdigits'⟩ := h'.exists_digits
  have hlist := congrArg String.toList heq
  rw [toList_text, toList_text, hdigits, hdigits'] at hlist
  obtain ⟨hletter, hrest⟩ := cons_eq_cons.mp (tail_eq_of_cons_eq hlist)
  obtain ⟨rfl, hsuffix⟩ := eq_of_digits_append name.takeWhile_spelling name'.takeWhile_spelling hrest
  exact spelling_injective (Prod.ext hletter (Prod.ext (hn.trans hm.symm) hsuffix))

end Name

/-! ## Labels of blocks -/

def numberedLabel (index : Nat) : String := s!"bb{index}"

theorem toList_numberedLabel (index : Nat) : (numberedLabel index).toList = 'b' :: 'b' :: Nat.toDigits 10 index := by
  show ("bb" ++ index.repr).toList = _
  simp [String.toList_append, Nat.toList_repr]

theorem underscore_not_mem_numberedLabel (index : Nat) : '_' ∉ (numberedLabel index).toList := by
  rw [toList_numberedLabel]
  intro hmem
  simp only [mem_cons, reduceEq, false_or] at hmem
  exact absurd (Nat.isDigit_of_mem_toDigits (by decide) (by decide) hmem) (by decide)

theorem numberedLabel_injective (h : numberedLabel index = numberedLabel index') : index = index' := by
  have hlist := congrArg String.toList h
  rw [toList_numberedLabel, toList_numberedLabel] at hlist
  exact Decimal.toDigits_injective (tail_eq_of_cons_eq (tail_eq_of_cons_eq hlist))

/-- Names of blocks are told from numbered labels by a character that those do not have. -/
structure Distinguished (blocks : List BasicBlock) : Prop where
  names : (blocks.filterMap (·.name)).Nodup
  compound : ∀ block ∈ blocks, ∀ name, block.name = some name → '_' ∈ name.toList

section
variable {blocks : List BasicBlock} {index : Nat} {block : BasicBlock} {label : String}

theorem mem_blockLabels : label ∈ blockLabels blocks ↔
    ∃ (index : Nat) (block : BasicBlock), blocks[index]? = some block ∧
      label = block.name.getD (numberedLabel index) := by
  simp only [blockLabels, List.mem_map, Prod.exists, mk_mem_zipIdx_iff_getElem?]
  constructor
  · rintro ⟨block, index, hblock, heq⟩
    exact ⟨index, block, hblock, heq.symm⟩
  · rintro ⟨index, block, hblock, heq⟩
    exact ⟨block, index, hblock, heq.symm⟩

theorem mem_blockLabels_of_name (h : block ∈ blocks) (hname : block.name = some label) :
    label ∈ blockLabels blocks := by
  obtain ⟨index, hindex⟩ := mem_iff_getElem?.mp h
  exact mem_blockLabels.mpr ⟨index, block, hindex, by rw [hname, getD_some]⟩

theorem Distinguished.ne_entry (h : Distinguished blocks) (hlabel : label ∈ blockLabels blocks) : label ≠ "entry" := by
  obtain ⟨_, block, hblock, rfl⟩ := mem_blockLabels.mp hlabel
  intro hentry
  cases hname : block.name with
  | none =>
    rw [hname, getD_none] at hentry
    have hlist := congrArg String.toList hentry
    rw [toList_numberedLabel] at hlist
    exact absurd (cons_eq_cons.mp hlist).1 (by decide)
  | some name =>
    rw [hname, getD_some] at hentry
    have hmem := h.compound block (mem_of_getElem? hblock) name hname
    rw [hentry] at hmem
    exact absurd hmem (by decide)

theorem Distinguished.nodup_blockLabels (h : Distinguished blocks) : (blockLabels blocks).Nodup := by
  have hnamed : ∀ block ∈ blocks, block.name ≠ some "" := fun block hblock hname =>
    absurd (h.compound block hblock "" hname) (by decide)
  have hlen : (blockLabels blocks).length = blocks.length := by simp [blockLabels]
  have hget : ∀ {index : Nat} {block : BasicBlock}, blocks[index]? = some block →
      (blockLabels blocks)[index]? = some (block.name.getD (numberedLabel index)) := by
    intro _ _ hblock
    simp [blockLabels, hblock, numberedLabel]
  rw [nodup_iff_getElem?_ne_getElem?]
  intro i j hij hj heq
  rw [hlen] at hj
  have hi := getElem?_eq_getElem (Nat.lt_trans hij hj)
  have hj := getElem?_eq_getElem hj
  rw [hget hi, hget hj, some.injEq] at heq
  cases hname : blocks[i].name with
  | none =>
    cases hname' : blocks[j].name with
    | none =>
      rw [hname, hname'] at heq
      exact absurd (numberedLabel_injective heq) (Nat.ne_of_lt hij)
    | some name =>
      rw [hname, hname', getD_none, getD_some] at heq
      exact underscore_not_mem_numberedLabel i (heq ▸ h.compound _ (mem_of_getElem? hj) name hname')
  | some name =>
    cases hname' : blocks[j].name with
    | none =>
      rw [hname, hname', getD_none, getD_some] at heq
      exact underscore_not_mem_numberedLabel j (heq ▸ h.compound _ (mem_of_getElem? hi) name hname)
    | some =>
      rw [hname, hname', getD_some, getD_some] at heq
      have hfirst := (get?_labelsOf hnamed h.names).mpr ⟨_, hi, hname⟩
      have hsecond := (get?_labelsOf hnamed h.names).mpr ⟨_, hj, heq ▸ hname'⟩
      exact absurd (some.inj (hfirst.symm.trans hsecond)) (Nat.ne_of_lt hij)

end

/-! ## Function definitions -/

/-- A function as it is written, without notes. -/
structure Definition where
  head : String
  /-- The body of the first block. -/
  entry : List Instruction
  others : List Block
deriving DecidableEq, Repr

namespace Definition

def blocks (d : Definition) : List Block := ⟨"entry", d.entry⟩ :: d.others

def lines (d : Definition) : Code := .raw d.head :: (d.blocks.flatMap Block.lines ++ [.raw "\x7d"])

def definitions (d : Definition) : List Name := d.blocks.flatMap (Llvm.definitions ·.body)

/-- The head declares the arguments of the procedure, one for each parameter. -/
def Declares (d : Definition) (f : Procedure) : Prop :=
  ∃ parameters, List.Forall₂ (fun (q : Parameter) text => ∃ type, typeText q.register.type = .ok type ∧
    text = type ++ " " ++ (Name.argument q.register.id).text) f.parameters parameters ∧
      signature f parameters = .ok d.head

/-- The name may be used behind code of a block: it is defined by that code, or it is a slot that the first block
makes, or an argument. -/
def Offers (d : Definition) (arguments : List Name) (before : List Instruction) : Name → Prop
  | .temporary number => .temporary number ∈ Llvm.definitions before
  | .value register => .value register ∈ Llvm.definitions before
  | .slot register => ∃ type, .define (.slot register) (.allocate type) ∈ d.entry
  | .argument register => .argument register ∈ arguments

/-- The function is in static single assignment form. -/
structure WellFormed (d : Definition) (arguments : List Name) : Prop where
  ended : ∀ b ∈ d.blocks, IsEnded b.body
  labels : (d.blocks.map (·.label)).Nodup
  targets : ∀ b ∈ d.blocks, ∀ i ∈ b.body, ∀ label ∈ i.targets,
    label ≠ "entry" ∧ ∃ target ∈ d.blocks, target.label = label
  once : ((arguments ++ d.definitions).map Name.text).Nodup
  uses : ∀ b ∈ d.blocks, ∀ before i after, b.body = before ++ i :: after → ∀ name ∈ i.uses,
    d.Offers arguments before name

end Definition

/-! ## The first block -/

/-- Lines that are made one for each element are instructions if each of them is one. -/
theorem exists_instructions {α : Type} {f : α → Checked (Line Instruction)} {R : α → Instruction → Prop} {as}
    (h : as.mapM f = .ok code) (hf : ∀ a line, f a = .ok line → ∃ i, line.bare = .plain i ∧ R a i) :
    ∃ instructions, code.map Line.bare = instructions.map .plain ∧ Forall₂ R as instructions := by
  have hforall := forall₂_of_mapM h
  clear h
  induction hforall with
  | nil => exact ⟨[], rfl, .nil⟩
  | cons hline _ ih =>
    obtain ⟨i, hbare, hi⟩ := hf _ _ hline
    obtain ⟨instructions, hcode, hall⟩ := ih
    exact ⟨i :: instructions, by rw [map_cons, hbare, hcode, map_cons], .cons hi hall⟩

section
variable {ctx : Context} {registers : List Register} {f : Procedure} {code : Code}

def Context.slotted (ctx : Context) (registers : List Register) : List Register :=
  registers.filter fun r => ctx.storages.get? r.id = some .slot

theorem Context.mem_slotted : r ∈ ctx.slotted regs ↔ r ∈ regs ∧ ctx.storages.get? r.id = some .slot := by
  simp [slotted]

theorem Context.slotted_sublist (ctx : Context) (registers : List Register) :
    (ctx.slotted registers).Sublist registers :=
  filter_sublist

def Allocates (r : Register) (i : Instruction) : Prop := ∃ type, i = .define (.slot r.id) (.allocate type)

theorem allocates_of_allocations (h : allocations ctx registers = .ok code) :
    ∃ instructions, code.map Line.bare = instructions.map .plain ∧
      Forall₂ Allocates (ctx.slotted registers) instructions := by
  refine exists_instructions h fun r line hline => ?_
  obtain ⟨type, -, hline⟩ := bind_eq_ok.mp hline
  cases hline
  exact ⟨_, rfl, type, rfl⟩

def Spills (q : Parameter) (i : Instruction) : Prop :=
  ∃ type, i = .store type (.name (.argument q.register.id)) (.name (.slot q.register.id))

theorem spills_of_spills (h : spills f = .ok code) :
    ∃ instructions, code.map Line.bare = instructions.map .plain ∧ Forall₂ Spills f.parameters instructions := by
  refine exists_instructions h fun q line hline => ?_
  obtain ⟨type, -, hline⟩ := bind_eq_ok.mp hline
  cases hline
  exact ⟨_, rfl, type, rfl⟩

theorem definitions_of_allocates {instrs} (h : Forall₂ Allocates regs instrs) :
    definitions instrs = regs.map fun r => .slot r.id := by
  induction h with
  | nil => rfl
  | cons hi _ ih =>
    obtain ⟨_, rfl⟩ := hi
    rw [map_cons, ← ih]
    rfl

theorem definitions_of_spills {params instrs} (h : Forall₂ Spills params instrs) : definitions instrs = [] := by
  induction h with
  | nil => rfl
  | cons hi _ ih =>
    obtain ⟨_, rfl⟩ := hi
    exact ih

end

/-! ## The parts of a function -/

/-- What emission relies on: parameters have registers of their own, and names of labels are made of two parts. -/
structure Emittable (f : Procedure) : Prop where
  regular : f.Regular
  parameters : f.parameterIds.Nodup
  compound : ∀ name ∈ f.instructions.filterMap (·.operation.labelName?), '_' ∈ name.toList

def Context.HasSlot (ctx : Context) (f : Procedure) (name : Name) : Prop :=
  ∃ r ∈ ctx.slotted f.registers, name = .slot r.id

/-- The blocks of the procedure with their labels. -/
def labelled (f : Procedure) : List (BasicBlock × String) :=
  (BasicBlock.split [] f.instructions).zip (blockLabels (BasicBlock.split [] f.instructions))

/-- The parts that the function of a procedure is put together from. -/
structure Assembles (f : Procedure) (ctx : Context) (allocated spilled : List Instruction) (others : List Block) :
    Prop where
  emittable : Emittable f
  known : ∀ i ∈ f.instructions, ∀ node, i.operation ≠ .unknown node
  classified : classify f (BasicBlock.split [] f.instructions) = .ok ctx.storages
  allocates : List.Forall₂ Allocates (ctx.slotted f.registers) allocated
  spills : List.Forall₂ Spills f.parameters spilled
  writes : ∃ high, WritesBlocks (ctx.HasSlot f) ctx (labelled f) 0 others high

/-- How the first block goes on to the code. -/
def startOf (f : Procedure) : Instruction :=
  match blockLabels (BasicBlock.split [] f.instructions) with
  | first :: _ => .branch first
  | [] => .unreachable

theorem Emittable.wellLabelled (h : Emittable f)
    (hknown : ∀ i ∈ f.instructions, ∀ node, i.operation ≠ .unknown node) : WellLabelled f.instructions where
  known := hknown
  distinct := h.regular.labels
  named := h.regular.named
  targets := h.regular.prepared.jumps

theorem Emittable.distinguished (h : Emittable f) (hknown : ∀ i ∈ f.instructions, ∀ node, i.operation ≠ .unknown node) :
    Distinguished (split [] f.instructions) := by
  obtain ⟨-, hnames⟩ := names_split (h.wellLabelled hknown)
  refine ⟨hnames ▸ h.regular.labels, fun block hblock name hname => h.compound name ?_⟩
  rw [← hnames]
  exact mem_filterMap.mpr ⟨block, hblock, hname⟩

theorem Emittable.mentions (h : Emittable f) :
    ∀ block ∈ split [] f.instructions, ∀ i ∈ block.instructions, ∀ r, r ∈ i.reads ∨ r ∈ i.writes →
      r ∈ f.registers := by
  intro block hblock i hi r hr
  have hmem : i ∈ f.instructions := by
    rw [← joined_split f.instructions]
    exact mem_flatMap.mpr ⟨block, hblock, hi⟩
  exact h.regular.mentions i hmem r (mem_append.mpr hr)

/-- The instructions of every block find the storages that they need. -/
theorem Emittable.supports {ctx : Context} (h : Emittable f)
    (hclassify : classify f (split [] f.instructions) = .ok ctx.storages) (hpair : pair ∈ labelled f) :
    IsBasic pair.1.instructions ∧ ctx.Supports (ctx.HasSlot f) [] pair.1.instructions := by
  have hnumbered := h.regular.numbered
  have hblock : pair.1 ∈ split [] f.instructions := (of_mem_zip hpair).1
  refine ⟨(isBasic_of_mem_split isOpen_nil hblock).1, ?_, ?_, ?_⟩
  · exact fun i hi => suits_of_classify hclassify hnumbered h.mentions hblock hi
  · exact fun i hi r hr hslot => ⟨r, Context.mem_slotted.mpr ⟨h.mentions _ hblock i hi r hr, hslot⟩, rfl⟩
  · exact fun before i after hsplit r hr hvalue =>
      mem_namesOf_of_reads hclassify hnumbered h.mentions hblock hsplit hr hvalue

theorem snd_labelled (f : Procedure) : (labelled f).map Prod.snd = blockLabels (split [] f.instructions) := by
  rw [labelled, map_snd_zip]
  simp [blockLabels]

theorem flatMap_labelled (f : Procedure) : (labelled f).flatMap (·.1.instructions) = f.instructions := by
  have hfst : (labelled f).map Prod.fst = split [] f.instructions := by
    rw [labelled, map_fst_zip]
    simp [blockLabels]
  have hflat := joined_split f.instructions
  rw [← hfst, flatMap_map] at hflat
  exact hflat

namespace Assembles

variable {f : Procedure} {ctx : Context} {allocated spilled : List Instruction} {others : List Block}
  (h : Assembles f ctx allocated spilled others)
include h

theorem isPlain : IsPlain (allocated ++ spilled) := by
  refine forall_mem_append.mpr ⟨fun i hi => ?_, fun i hi => ?_⟩
  · obtain ⟨r, -, _, rfl⟩ := exists_origin h.allocates hi
    rfl
  · obtain ⟨q, -, _, rfl⟩ := exists_origin h.spills hi
    rfl

/-- Every block has the label that it has among the basic blocks. -/
theorem labels : others.map (·.label) = blockLabels (split [] f.instructions) := by
  obtain ⟨_, hwrites⟩ := h.writes
  rw [hwrites.labels, snd_labelled]

theorem exists_target (hlabel : label ∈ blockLabels (split [] f.instructions)) (first : Block) :
    label ≠ "entry" ∧ ∃ b ∈ first :: others, b.label = label := by
  refine ⟨(h.emittable.distinguished h.known).ne_entry hlabel, ?_⟩
  rw [← h.labels] at hlabel
  obtain ⟨b, hb, heq⟩ := mem_map.mp hlabel
  exact ⟨b, .tail _ hb, heq⟩

theorem targets (hb : b ∈ others) (hi : i ∈ b.body)
    (hlabel : label ∈ i.targets) : label ∈ blockLabels (split [] f.instructions) := by
  obtain ⟨high, hwrites⟩ := h.writes
  obtain ⟨pair, hpair, _, _, _, hblock, hnext⟩ := hwrites.exists_writesBlock hb
  rcases hblock.targets i hi label hlabel with ⟨j, hj, hjump⟩ | ⟨rfl, -⟩
  · have hmem : j ∈ f.instructions := by
      rw [← flatMap_labelled]
      exact mem_flatMap.mpr ⟨pair, hpair, hj⟩
    obtain ⟨_, htarget, hname⟩ := FlowGraph.exists_target (h.emittable.wellLabelled h.known) hmem hjump
    exact mem_blockLabels_of_name htarget hname
  · rw [← snd_labelled]
    exact hnext label rfl

/-- All names that the function defines, by kinds. -/
theorem perm_names (head : String) :
    ∃ high, (Definition.definitions ⟨head, allocated ++ spilled ++ [startOf f], others⟩).Perm
      ((ctx.slotted f.registers).map (fun r => Name.slot r.id) ++
        (temporaries 0 high ++ f.instructions.flatMap (ctx.namesOf ·.operation))) := by
  obtain ⟨high, hwrites⟩ := h.writes
  have hstart : definitions [startOf f] = [] := by
    unfold startOf
    split <;> rfl
  refine ⟨high, ?_⟩
  simp only [Definition.definitions, Definition.blocks, flatMap_cons, definitions_append,
    definitions_of_allocates h.allocates, definitions_of_spills h.spills, hstart, append_nil]
  exact .append_left _ (flatMap_labelled f ▸ hwrites.perm_definitions)

theorem mem_values {name}
    (hname : name ∈ f.instructions.flatMap (ctx.namesOf ·.operation)) : ∃ r ∈ f.registers, name = .value r.id := by
  obtain ⟨i, hi, hname⟩ := mem_flatMap.mp hname
  obtain ⟨r, hr, -, rfl⟩ := Context.mem_namesOf.mp hname
  exact ⟨r, h.emittable.regular.mentions i hi r (mem_append_right _ hr), rfl⟩

theorem nodup_names (head : String) :
    (f.parameterIds.map Name.argument ++
      Definition.definitions ⟨head, allocated ++ spilled ++ [startOf f], others⟩).Nodup := by
  obtain ⟨high, hperm⟩ := h.perm_names head
  have hvalues := nodup_values h.classified h.emittable.regular.numbered h.emittable.mentions
  rw [joined_split] at hvalues
  have htemporaries : (temporaries 0 high).Nodup := Nodup.map (fun _ _ => Name.temporary.inj) nodup_range'
  have hslots : ((ctx.slotted f.registers).map fun r => Name.slot r.id).Nodup := by
    have hids := h.emittable.regular.numbered.nodup_ids.sublist (Sublist.map (·.id) (ctx.slotted_sublist f.registers))
    simpa only [List.map_map, Function.comp_def] using hids.map fun _ _ => Name.slot.inj
  rw [(hperm.append_left _).nodup_iff]
  refine nodup_append.mpr ⟨h.emittable.parameters.map fun _ _ => Name.argument.inj,
    nodup_append.mpr ⟨hslots, nodup_append.mpr ⟨htemporaries, hvalues, ?_⟩, ?_⟩, ?_⟩ <;>
    rintro name hname other hother rfl
  -- names of different kinds differ
  all_goals
    have hvalue : name ∈ f.instructions.flatMap (ctx.namesOf ·.operation) → ∃ r, name = .value r := fun hname =>
      (h.mem_values hname).imp' Register.id fun _ hr => hr.2
    simp only [temporaries, mem_append, List.mem_map] at hname hother
    grind

theorem isNumbered {head name} (hname : name ∈ f.parameterIds.map Name.argument ++
      Definition.definitions ⟨head, allocated ++ spilled ++ [startOf f], others⟩) : name.IsNumbered := by
  have hnatural : ∀ r ∈ f.registers, ∃ n, r.id = .natural n := fun r hr => by
    obtain ⟨index, hindex⟩ := mem_iff_getElem?.mp hr
    exact ⟨index + 1, h.emittable.regular.numbered index r hindex⟩
  obtain ⟨high, hperm⟩ := h.perm_names head
  rw [(hperm.append_left _).mem_iff, mem_append, mem_append, mem_append] at hname
  rcases hname with hname | hname | hname | hname
  · obtain ⟨_, hid, rfl⟩ := mem_map.mp hname
    obtain ⟨q, hq, rfl⟩ := mem_map.mp hid
    exact hnatural _ (h.emittable.regular.parameters q hq)
  · obtain ⟨r, hr, rfl⟩ := mem_map.mp hname
    exact hnatural r (Context.mem_slotted.mp hr).1
  · obtain ⟨n, -, rfl⟩ := mem_map.mp hname
    trivial
  · obtain ⟨r, hr, rfl⟩ := h.mem_values hname
    exact hnatural r hr

/-- A slot is made in the first block. -/
theorem exists_allocate {id} (hslot : ctx.HasSlot f (.slot id)) :
    ∃ type, .define (.slot id) (.allocate type) ∈ allocated ++ spilled ++ [startOf f] := by
  obtain ⟨r, hr, heq⟩ := hslot
  cases heq
  obtain ⟨i, hi, type, rfl⟩ := exists_partner h.allocates hr
  exact ⟨type, mem_append_left _ (mem_append_left _ hi)⟩

theorem hasSlot_parameter (hq : q ∈ f.parameters) : ctx.HasSlot f (.slot q.register.id) := by
  have hr := h.emittable.regular.parameters q hq
  obtain ⟨_, hclassify, hstorage⟩ := get?_of_classify h.classified h.emittable.regular.numbered hr
  have hparam : f.isParameterRegister q.register = true := any_eq_true.mpr ⟨q, hq, decide_eq_true rfl⟩
  rw [classifyRegister, if_pos hparam] at hclassify
  exact ⟨q.register, Context.mem_slotted.mpr ⟨hr, Except.ok.inj hclassify ▸ hstorage⟩, rfl⟩

/-- What the code of a block defines are temporaries and values. -/
theorem mem_body {b} (hb : b ∈ others) {name}
    (hname : name ∈ definitions b.body) : (∃ n, name = .temporary n) ∨ ∃ r, name = .value r := by
  obtain ⟨_, hwrites⟩ := h.writes
  have hmem := hwrites.perm_definitions.mem_iff.mp (mem_flatMap.mpr ⟨b, hb, hname⟩)
  rw [flatMap_labelled] at hmem
  rcases mem_append.mp hmem with hmem | hmem
  · obtain ⟨n, -, rfl⟩ := mem_map.mp hmem
    exact Or.inl ⟨n, rfl⟩
  · obtain ⟨r, -, rfl⟩ := h.mem_values hmem
    exact Or.inr ⟨r.id, rfl⟩

theorem targets_entry (hi : i ∈ allocated ++ spilled ++ [startOf f])
    (hlabel : label ∈ i.targets) : label ∈ blockLabels (split [] f.instructions) := by
  rcases mem_append.mp hi with hi | hi
  · rw [targets_of_plain (h.isPlain i hi)] at hlabel
    cases hlabel
  · rw [mem_singleton.mp hi, startOf] at hlabel
    split at hlabel
    · rename_i first rest hlabels
      rw [hlabels, mem_singleton.mp hlabel]
      exact .head _
    · cases hlabel

/-- The first block uses arguments and slots. -/
theorem uses_entry {i} (hi : i ∈ allocated ++ spilled ++ [startOf f]) {name} (hname : name ∈ i.uses) :
    (∃ id ∈ f.parameterIds, name = .argument id) ∨ ∃ id, ctx.HasSlot f (.slot id) ∧ name = .slot id := by
  rcases mem_append.mp hi with hi | hi
  · rcases mem_append.mp hi with hi | hi
    · obtain ⟨r, -, _, rfl⟩ := exists_origin h.allocates hi
      cases hname
    · obtain ⟨q, hq, _, rfl⟩ := exists_origin h.spills hi
      rcases mem_pair.mp hname with rfl | rfl
      · exact Or.inl ⟨_, mem_map_of_mem hq, rfl⟩
      · exact Or.inr ⟨_, h.hasSlot_parameter hq, rfl⟩
  · rw [mem_singleton.mp hi, startOf] at hname
    split at hname <;> cases hname

theorem wellFormed (head : String) :
    Definition.WellFormed ⟨head, allocated ++ spilled ++ [startOf f], others⟩ (f.parameterIds.map .argument) where
  ended := by
    refine forall_mem_cons.mpr ⟨⟨_, _, rfl, h.isPlain, ?_⟩, fun b hb => ?_⟩
    · unfold startOf
      split <;> rfl
    · obtain ⟨_, hwrites⟩ := h.writes
      obtain ⟨_, _, _, _, _, hblock, -⟩ := hwrites.exists_writesBlock hb
      exact hblock.ended
  labels := by
    have hdistinguished := h.emittable.distinguished h.known
    rw [Definition.blocks, map_cons, h.labels, nodup_cons]
    exact ⟨fun hmem => hdistinguished.ne_entry hmem rfl, hdistinguished.nodup_blockLabels⟩
  targets := by
    refine forall_mem_cons.mpr ⟨fun i hi label hlabel => ?_, fun b hb i hi label hlabel => ?_⟩
    · exact h.exists_target (h.targets_entry hi hlabel) _
    · exact h.exists_target (h.targets hb hi hlabel) _
  once := (h.nodup_names head).map_on fun name hname other hother =>
    Name.text_injective (h.isNumbered hname) (h.isNumbered hother)
  uses := by
    refine forall_mem_cons.mpr ⟨fun before i after hsplit name hname => ?_,
      fun b hb before i after hsplit name hname => ?_⟩
    · have hi : i ∈ allocated ++ spilled ++ [startOf f] := by
        rw [show allocated ++ spilled ++ [startOf f] = before ++ i :: after from hsplit]
        exact mem_append_right _ (.head _)
      rcases h.uses_entry hi hname with ⟨_, hid, rfl⟩ | ⟨_, hslot, rfl⟩
      · exact mem_map_of_mem hid
      · exact h.exists_allocate hslot
    · obtain ⟨_, hwrites⟩ := h.writes
      obtain ⟨_, _, _, _, _, hblock, -⟩ := hwrites.exists_writesBlock hb
      rcases (hsplit ▸ hblock.supplied).known_or_defined hname with ⟨r, hr, rfl⟩ | hdefined
      · exact h.exists_allocate ⟨r, hr, rfl⟩
      · have hmem : name ∈ definitions b.body := by
          rw [hsplit, definitions_append]
          exact mem_append_left _ hdefined
        rcases h.mem_body hb hmem with ⟨n, rfl⟩ | ⟨r, rfl⟩ <;> exact hdefined

end Assembles

/-- The function of a procedure is in static single assignment form. -/
theorem exists_definition (hf : Emittable f) (h : (procedureCode program f).runFresh = .ok (code, externals)) :
    ∃ d : Definition, code.map Line.bare = d.lines ∧ d.Declares f ∧ d.WellFormed (f.parameterIds.map .argument) := by
  obtain ⟨s, hruns⟩ : ∃ s, Emit.Gives (procedureCode program f) ⟨0, []⟩ code s := Emit.gives_of_runFresh h
  simp only [procedureCode, Emit.gives_bind, Emit.gives_check, Emit.gives_pure] at hruns
  obtain ⟨_, _, ⟨hgraph, rfl⟩, storages, _, ⟨hstorages, rfl⟩, parameters, _, ⟨hparameters, rfl⟩, _, _,
    ⟨hallocated, rfl⟩, spilled, _, ⟨hspilled, rfl⟩, head, _, ⟨hhead, rfl⟩, body, _, hbody, rfl, rfl⟩ := hruns
  obtain ⟨hblocks, hknown⟩ := of_ofInstructions hgraph
  rw [hblocks] at hstorages hbody
  obtain ⟨allocations, hallocations, hallocates⟩ := allocates_of_allocations hallocated
  obtain ⟨stores, hstores, hspills⟩ := spills_of_spills hspilled
  obtain ⟨others, hothers, hwrites⟩ := writesBlocks_of_blocksCode hbody fun pair hpair => hf.supports hstorages hpair
  have hassembles : Assembles f ⟨program, storages⟩ allocations stores others :=
    ⟨hf, hknown, hstorages, hallocates, hspills, _, hwrites⟩
  refine ⟨⟨head, allocations ++ stores ++ [startOf f], others⟩, ?_, ⟨parameters, ?_, hhead⟩, hassembles.wellFormed head⟩
  · simp only [map_append, map_cons, map_nil, hallocations, hstores, hothers, Definition.lines,
      Definition.blocks, flatMap_cons, Block.lines, startOf, hblocks, List.append_assoc, cons_append,
      nil_append]
    rfl
  · refine (forall₂_of_mapM hparameters).imp fun q text htext => ?_
    obtain ⟨type, htype, htext⟩ := bind_eq_ok.mp htext
    exact ⟨type, htype, (Except.ok.inj htext).symm⟩

end Llvm

end Retarget
