import Retarget.Proofs.Emit.Llvm.Storage
import Retarget.Proofs.Emit.Session
import Retarget.Proofs.Graph.Blocks

/-!
# The code of basic blocks

A basic block becomes a label and code that ends with the one instruction that leaves it. Its temporaries are new,
and what it uses are slots, and names that it defined before.
-/
namespace Retarget

open List Operation

def Line.bare {ι : Type} : Line ι → Line ι
  | .code instruction _ => .plain instruction
  | line => line

theorem Line.bare_withWhy {ι : Type} (why : String) (lines : List (Line ι)) :
    (withWhy why lines).map bare = lines.map bare := by
  induction lines with
  | nil => rfl
  | cons line _ ih => cases line <;> simp [withWhy, bare, ih]

theorem Line.bare_plain {ι : Type} (instrs : List ι) : (instrs.map (plain (ι := ι))).map bare = instrs.map plain := by
  rw [List.map_map]
  rfl

namespace Llvm

open Select

theorem gives_of_selected {next} (h : Emit.Gives (selected ctx next op) s code s') :
    Gives (select ctx next op) [] s () code s' := by
  obtain ⟨⟨_, _⟩, t, hselect, h⟩ := Emit.gives_bind.mp h
  obtain ⟨rfl, rfl⟩ := Emit.gives_pure.mp h
  exact hselect

/-! ## Instructions of a block -/

/-- The code of operations that follow one another in a block: each finds what the ones before it defined. -/
inductive SelectsAll (ctx : Context) (next : Option String) :
    (Name → Prop) → List Retarget.Instruction → Nat → List Instruction → Nat → Prop
  | nil {known : Name → Prop} {low : Nat} : SelectsAll ctx next known [] low [] low
  | cons {known : Name → Prop} {i : Retarget.Instruction} {is : List Retarget.Instruction} {low middle high : Nat}
      {code code' : List Instruction} (first : Selects known ctx next i.operation low code middle)
      (rest : SelectsAll ctx next (fun name => known name ∨ name ∈ definitions code) is middle code' high) :
      SelectsAll ctx next known (i :: is) low (code ++ code') high

/-- Temporaries of one piece of code and the next, with other names between them. -/
theorem append_temporaries (h : low ≤ middle) (h' : middle ≤ high)
    {defined defined' : List Name} (hnames : defined.Perm (temporaries low middle ++ names))
    (hnames' : defined'.Perm (temporaries middle high ++ names')) :
    (defined ++ defined').Perm (temporaries low high ++ (names ++ names')) := by
  refine (hnames.append hnames').trans ?_
  rw [← temporaries_append h h', append_assoc, append_assoc]
  refine .append_left _ ?_
  simpa only [append_assoc] using perm_append_comm.append_right names'

/-- Nothing leaves the block. -/
def GoesOn (is : List Retarget.Instruction) : Prop := ∀ i ∈ is, i.operation.blockRole ≠ .ends

theorem IsPlain.append_isEnded (h : IsPlain code) (h' : IsEnded code') : IsEnded (code ++ code') := by
  obtain ⟨body, last, rfl, hbody, hlast⟩ := h'
  exact ⟨code ++ body, last, (append_assoc ..).symm, forall_mem_append.mpr ⟨h, hbody⟩, hlast⟩

variable {slots : Name → Prop} {ctx : Context} {next : Option String} {is before : List Retarget.Instruction}
  {low high : Nat}

namespace SelectsAll

variable {known : Name → Prop} {last : Retarget.Instruction} {code : List Instruction}

section
variable (h : SelectsAll ctx next known is low code high)
include h

theorem le : low ≤ high := by
  induction h with
  | nil => exact Nat.le_refl _
  | cons first _ ih => exact Nat.le_trans first.le ih

theorem mono {known' : Name → Prop}
    (hknown : ∀ name, known name → known' name) : SelectsAll ctx next known' is low code high := by
  induction h generalizing known' with
  | nil => exact .nil
  | cons first _ ih =>
    exact .cons { first with supplied := first.supplied.mono hknown } (ih fun name => Or.imp_left (hknown name))

theorem supplied : Supplied known code := by
  induction h with
  | nil => trivial
  | cons first _ ih => exact supplied_append.mpr ⟨first.supplied, ih⟩

/-- New temporaries are defined, and the values of the registers that are written. -/
theorem perm_definitions :
    (definitions code).Perm (temporaries low high ++ is.flatMap (ctx.namesOf ·.operation)) := by
  induction h with
  | nil => simp [definitions, temporaries]
  | @cons _ i is low _ _ _ _ first rest ih =>
    rw [definitions_append, flatMap_cons]
    exact append_temporaries first.le rest.le (.of_eq first.defines) ih

theorem isPlain (his : GoesOn is) : IsPlain code := by
  induction h with
  | nil => exact forall_mem_nil _
  | cons first _ ih =>
    obtain ⟨hfirst, hrest⟩ := forall_mem_cons.mp his
    exact forall_mem_append.mpr ⟨first.plain hfirst, ih hrest⟩

end

theorem isEnded (h : SelectsAll ctx next known (before ++ [last]) low code high) (hbefore : GoesOn before)
    (hlast : last.operation.blockRole = .ends) : IsEnded code := by
  induction before generalizing known low code with
  | nil =>
    cases h with
    | cons first rest =>
      cases rest
      rw [append_nil]
      exact first.ended hlast
  | cons i _ ih =>
    obtain ⟨hi, hbefore⟩ := forall_mem_cons.mp hbefore
    cases h with
    | cons first rest => exact IsPlain.append_isEnded (first.plain hi) (ih rest hbefore)

theorem targets (h : SelectsAll ctx next known is low code high) {i} (hi : i ∈ code) {label}
    (hlabel : label ∈ i.targets) :
    (∃ j ∈ is, j.operation.jumpTarget? = some label) ∨ next = some label ∧ label ≠ "" := by
  induction h with
  | nil => cases hi
  | cons first _ ih =>
    rcases mem_append.mp hi with hi | hi
    · exact (first.targets i hi label hlabel).imp_left fun hjump => ⟨_, .head _, hjump⟩
    · exact (ih hi).imp_left fun ⟨j, hj, hjump⟩ => ⟨j, .tail _ hj, hjump⟩

end SelectsAll

/-! ## Blocks -/

structure Block where
  label : String
  body : List Instruction
deriving DecidableEq, Repr

def Block.lines (b : Block) : Code := .label b.label :: b.body.map .plain

/-- Operations that find the storages that they need, behind others of their block. -/
structure Context.Supports (ctx : Context) (slots : Name → Prop) (before is : List Retarget.Instruction) : Prop where
  suits : ∀ i ∈ is, ctx.Suits i.operation
  slots : ∀ i ∈ is, ∀ r, r ∈ i.reads ∨ r ∈ i.writes → ctx.storages.get? r.id = some .slot → slots (.slot r.id)
  values : ∀ between i after, is = between ++ i :: after → ∀ r ∈ i.reads, ctx.storages.get? r.id = some .value →
    .value r.id ∈ (before ++ between).flatMap (ctx.namesOf ·.operation)

variable {code : Code} {s s' : Session}

theorem Context.Supports.tail (h : ctx.Supports slots before (i :: is)) : ctx.Supports slots (before ++ [i]) is where
  suits j hj := h.suits j (.tail _ hj)
  slots j hj := h.slots j (.tail _ hj)
  values between j after hsplit r hr hvalue := by
    have hmem := h.values (i :: between) j after (by rw [hsplit, cons_append]) r hr hvalue
    rwa [append_assoc]

theorem selectsAll_of_selectAll (h : Emit.Gives (selectAll ctx next is) s code s')
    (hsupports : ctx.Supports slots before is) :
    ∃ instrs, code.map Line.bare = instrs.map .plain ∧ SelectsAll ctx next
      (fun name => slots name ∨ name ∈ before.flatMap (ctx.namesOf ·.operation)) is s.numbers instrs s'.numbers := by
  induction is generalizing before s code with
  | nil =>
    obtain ⟨rfl, rfl⟩ := Emit.gives_pure.mp h
    exact ⟨[], rfl, .nil⟩
  | cons i is ih =>
    simp only [selectAll, Emit.gives_bind, Emit.gives_pure] at h
    obtain ⟨first, t, hfirst, _, _, hrest, rfl, rfl⟩ := h
    obtain ⟨instrs, hcode, hall⟩ := ih hrest hsupports.tail
    have hselects : Selects (fun name => slots name ∨ name ∈ before.flatMap (ctx.namesOf ·.operation)) ctx next
        i.operation s.numbers first t.numbers := by
      refine Completing.select (hsupports.suits i (.head _)) (fun r hr => ⟨fun hvalue => ?_, fun hslot => ?_⟩)
        (fun r hr hslot => ?_) (.refl ..) (gives_of_selected hfirst)
      · exact Or.inr (by simpa using hsupports.values [] i is rfl r hr hvalue)
      · exact Or.inl (hsupports.slots i (.head _) r (.inl hr) hslot)
      · exact Or.inl (hsupports.slots i (.head _) r (.inr hr) hslot)
    refine ⟨first ++ instrs, ?_, .cons hselects ?_⟩
    · rw [map_append, Line.bare_withWhy, Line.bare_plain, hcode, map_append]
    · refine hall.mono fun name => ?_
      rw [flatMap_append, mem_append, hselects.defines, mem_append]
      rintro (hslot | hbefore | hi)
      · exact Or.inl (Or.inl hslot)
      · exact Or.inl (Or.inr hbefore)
      · rw [flatMap_singleton] at hi
        exact Or.inr (Or.inr hi)

/-- The code of a block: it defines new temporaries and the values of registers, uses slots and what it defined, and
is left at its end only, to where the block leads. -/
structure WritesBlock (slots : Name → Prop) (ctx : Context) (next : Option String) (is : List Retarget.Instruction)
    (low : Nat) (body : List Instruction) (high : Nat) : Prop where
  le : low ≤ high
  defines : (definitions body).Perm (temporaries low high ++ is.flatMap (ctx.namesOf ·.operation))
  supplied : Supplied slots body
  ended : IsEnded body
  targets : ∀ i ∈ body, ∀ label ∈ i.targets,
    (∃ j ∈ is, j.operation.jumpTarget? = some label) ∨ next = some label ∧ label ≠ ""

theorem isTransfer_of_ends {op : Operation} (h : op.blockRole = .ends) : op.IsTransfer := by
  cases op <;> simp_all [blockRole, IsTransfer, jumpTarget?]

theorem fallThrough_spec (next : Option String) :
    (fallThrough next).isTerminator = true ∧ (fallThrough next).uses = [] ∧ (fallThrough next).defines? = none ∧
      ∀ label ∈ (fallThrough next).targets, next = some label ∧ label ≠ "" := by
  unfold fallThrough
  split
  · exact ⟨rfl, rfl, rfl, forall_mem_nil _⟩
  · exact ⟨rfl, rfl, rfl, forall_mem_nil _⟩
  · rename_i following hne
    exact ⟨rfl, rfl, rfl, forall_mem_singleton.mpr ⟨rfl, fun heq => hne (heq ▸ rfl)⟩⟩

theorem writesBlock_of_blockCode {label} (h : Emit.Gives (blockCode ctx block label next) s code s')
    (hbasic : BasicBlock.IsBasic block.instructions) (hsupports : ctx.Supports slots [] block.instructions) :
    ∃ body, code.map Line.bare = Block.lines ⟨label, body⟩ ∧
      WritesBlock slots ctx next block.instructions s.numbers body s'.numbers := by
  simp only [blockCode, Emit.gives_bind, Emit.gives_pure] at h
  obtain ⟨_, t, hlines, rfl, rfl⟩ := h
  obtain ⟨instructions, hbare, hall⟩ := selectsAll_of_selectAll hlines hsupports
  simp only [flatMap_nil, not_mem_nil, or_false] at hall
  obtain ⟨before, last, hsplit⟩ := eq_nil_or_concat block.instructions |>.resolve_left hbasic.nonempty
  rw [concat_eq_append] at hsplit
  have hbefore : GoesOn before := by
    intro i hi hrole
    obtain ⟨k, hk⟩ := mem_iff_getElem?.mp hi
    have hlt := (List.getElem?_eq_some_iff.mp hk).1
    have hend := hbasic.ends k i (by rw [hsplit, getElem?_append_left hlt, hk]) (isTransfer_of_ends hrole)
    rw [hsplit, length_append, length_singleton] at hend
    omega
  have hends : endsItself block.instructions = decide (last.operation.blockRole = .ends) := by
    simp [endsItself, hsplit]
  rw [hends]
  by_cases hrole : last.operation.blockRole = .ends
  · refine ⟨instructions, ?_, hall.le, hall.perm_definitions, hall.supplied, ?_, fun i hi label => hall.targets hi⟩
    · simp [hrole, hbare, Block.lines, Line.bare]
    · rw [hsplit] at hall
      exact hall.isEnded hbefore hrole
  · obtain ⟨hterminator, huses, hdefines, htargets⟩ := fallThrough_spec next
    have hplain : IsPlain instructions := by
      refine hall.isPlain ?_
      rw [hsplit]
      exact forall_mem_append.mpr ⟨hbefore, forall_mem_singleton.mpr hrole⟩
    refine ⟨instructions ++ [fallThrough next], ?_, hall.le, ?_, ?_, ⟨_, _, rfl, hplain, hterminator⟩, ?_⟩
    · simp [hrole, hbare, Block.lines, Line.bare]
      rfl
    · rw [definitions_append]
      simpa [definitions, hdefines] using hall.perm_definitions
    · exact supplied_append.mpr ⟨hall.supplied, by simp [huses], trivial⟩
    · refine forall_mem_append.mpr ⟨fun i hi label => hall.targets hi, forall_mem_singleton.mpr ?_⟩
      exact fun label hlabel => Or.inr (htargets label hlabel)

/-! ## The blocks of a procedure -/

/-- The code of blocks one behind the other. -/
inductive WritesBlocks (slots : Name → Prop) (ctx : Context) :
    List (BasicBlock × String) → Nat → List Block → Nat → Prop
  | nil {low : Nat} : WritesBlocks slots ctx [] low [] low
  | cons {block : BasicBlock} {label : String} {rest : List (BasicBlock × String)} {low middle high : Nat}
      {body : List Instruction} {blocks : List Block}
      (first : WritesBlock slots ctx (rest.head?.map Prod.snd) block.instructions low body middle)
      (others : WritesBlocks slots ctx rest middle blocks high) :
      WritesBlocks slots ctx ((block, label) :: rest) low (⟨label, body⟩ :: blocks) high

theorem writesBlocks_of_blocksCode (h : Emit.Gives (blocksCode ctx pairs) s code s')
    (hpairs : ∀ pair ∈ pairs, BasicBlock.IsBasic pair.1.instructions ∧ ctx.Supports slots [] pair.1.instructions) :
    ∃ blocks, code.map Line.bare = blocks.flatMap Block.lines ∧
      WritesBlocks slots ctx pairs s.numbers blocks s'.numbers := by
  induction pairs generalizing s code with
  | nil =>
    obtain ⟨rfl, rfl⟩ := Emit.gives_pure.mp h
    exact ⟨[], rfl, .nil⟩
  | cons pair _ ih =>
    obtain ⟨_, label⟩ := pair
    simp only [blocksCode, Emit.gives_bind, Emit.gives_pure] at h
    obtain ⟨_, t, hfirst, _, _, hothers, rfl, rfl⟩ := h
    obtain ⟨⟨hbasic, hsupports⟩, hrest⟩ := forall_mem_cons.mp hpairs
    obtain ⟨body, hbare, hbody⟩ := writesBlock_of_blockCode hfirst hbasic hsupports
    obtain ⟨blocks, hbares, hblocks⟩ := ih hothers hrest
    exact ⟨⟨label, body⟩ :: blocks, by rw [map_append, hbare, hbares, flatMap_cons], .cons hbody hblocks⟩

namespace WritesBlocks

variable {pairs : List (BasicBlock × String)} {blocks : List Block} {b : Block}

section
variable (h : WritesBlocks slots ctx pairs low blocks high)
include h

theorem le : low ≤ high := by
  induction h with
  | nil => exact Nat.le_refl _
  | cons first _ ih => exact Nat.le_trans first.le ih

theorem labels : blocks.map (·.label) = pairs.map Prod.snd := by
  induction h with
  | nil => rfl
  | cons _ _ ih => rw [map_cons, map_cons, ih]

theorem perm_definitions :
    (blocks.flatMap (definitions ·.body)).Perm
      (temporaries low high ++ (pairs.flatMap (·.1.instructions)).flatMap (ctx.namesOf ·.operation)) := by
  induction h with
  | nil => simp [temporaries]
  | @cons _ _ _ low _ _ _ _ first others ih =>
    simp only [flatMap_cons, flatMap_append]
    exact append_temporaries first.le others.le first.defines ih

/-- The code of every block, with a next label that is one of the labels. -/
theorem exists_writesBlock (hb : b ∈ blocks) :
    ∃ pair ∈ pairs, ∃ next low high, WritesBlock slots ctx next pair.1.instructions low b.body high ∧
      ∀ label, next = some label → label ∈ pairs.map Prod.snd := by
  induction h with
  | nil => cases hb
  | @cons _ label _ low middle high _ _ first _ ih =>
    rcases mem_cons.mp hb with rfl | hb
    · refine ⟨_, .head _, _, low, middle, first, fun label hlabel => ?_⟩
      obtain ⟨_, hpair, rfl⟩ := Option.map_eq_some_iff.mp hlabel
      exact mem_map_of_mem (.tail _ (mem_of_mem_head? hpair))
    · obtain ⟨pair, hpair, next, low, high, hwrites, hnext⟩ := ih hb
      exact ⟨pair, .tail _ hpair, next, low, high, hwrites, fun label hlabel => .tail _ (hnext label hlabel)⟩

end

end WritesBlocks

end Llvm

end Retarget
