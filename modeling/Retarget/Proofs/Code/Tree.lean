import Retarget.Proofs.Code.Label

/-!
# Code with its structure

Lowering puts the code of parts one behind the other, and joins parts by labels and jumps in two ways only:
a choice between two parts, and a loop. A code tree keeps that structure; written out, it is a list of
operations.
-/
namespace Retarget

open List Operation

inductive CodeTree where
  | empty
  | plain (operation : Operation)
  | append (first second : CodeTree)
  /-- A choice between two parts. -/
  | branch (test : Register) (elseLabel endLabel : String) (whenTrue whenFalse : CodeTree)
  /-- A loop that goes on while the test holds behind its condition. -/
  | loop (header exit : String) (condition : CodeTree) (test : Register) (body : CodeTree)
deriving Repr

namespace CodeTree

instance : Append CodeTree := ⟨append⟩

def operations : CodeTree → List Operation
  | .empty => []
  | .plain operation => [operation]
  | .append first second => first.operations ++ second.operations
  | .branch test elseLabel endLabel whenTrue whenFalse =>
    .gotoIfFalse test elseLabel :: (whenTrue.operations ++
      .goto endLabel :: .label elseLabel :: (whenFalse.operations ++ [.label endLabel]))
  | .loop header exit condition test body =>
    .label header :: (condition.operations ++
      .gotoIfFalse test exit :: (body.operations ++ [.goto header, .label exit]))

@[simp] theorem operations_append (first second : CodeTree) :
    (first ++ second).operations = first.operations ++ second.operations := rfl

def labels (code : CodeTree) : List String := code.operations.filterMap (·.labelName?)

@[simp] theorem labels_empty : empty.labels = [] := rfl

theorem labels_plain {op} (h : op.isLabel = false) : (plain op).labels = [] := by
  simp [labels, operations, labelName?_of_not_isLabel h]

@[simp] theorem labels_append (first second : CodeTree) : (first ++ second).labels = first.labels ++ second.labels := by
  simp [labels]

@[simp] theorem labels_branch (test : Register) (elseLabel endLabel : String) (whenTrue whenFalse : CodeTree) :
    (branch test elseLabel endLabel whenTrue whenFalse).labels =
      whenTrue.labels ++ elseLabel :: (whenFalse.labels ++ [endLabel]) := by
  simp [labels, operations, labelName?]

@[simp] theorem labels_loop (header exit : String) (cond : CodeTree) (test : Register) (body : CodeTree) :
    (loop header exit cond test body).labels = header :: (cond.labels ++ (body.labels ++ [exit])) := by
  simp [labels, operations, labelName?]

/-! ## Labels with numbers -/

/-- Labels and jumps are only those of choices and loops. -/
def IsStructured : CodeTree → Prop
  | .empty => True
  | .plain operation => operation.isLabel = false ∧ operation.jumpTarget? = none
  | .append first second => first.IsStructured ∧ second.IsStructured
  | .branch _ _ _ whenTrue whenFalse => whenTrue.IsStructured ∧ whenFalse.IsStructured
  | .loop _ _ condition _ body => condition.IsStructured ∧ body.IsStructured

/-- The jumps of structured code stay inside it. -/
theorem IsStructured.jumps {code : CodeTree} (h : code.IsStructured) (ho : op ∈ code.operations)
    (hjump : op.jumpTarget? = some name) : name ∈ code.labels := by
  induction code with
  | empty => cases ho
  | plain =>
    rw [mem_singleton.mp ho, h.2] at hjump
    cases hjump
  | append _ _ ihfirst ihsecond =>
    rcases mem_append.mp ho with ho | ho
    · exact (labels_append ..) ▸ mem_append_left _ (ihfirst h.1 ho)
    · exact (labels_append ..) ▸ mem_append_right _ (ihsecond h.2 ho)
  | branch _ _ _ _ _ ihtrue ihfalse =>
    simp only [operations, mem_cons, mem_append, not_mem_nil, or_false] at ho
    simp only [labels_branch, mem_append, mem_cons, not_mem_nil, or_false]
    rcases ho with rfl | ho | rfl | rfl | ho | rfl
    · cases hjump
      exact Or.inr (Or.inl rfl)
    · exact Or.inl (ihtrue h.1 ho)
    · cases hjump
      exact Or.inr (Or.inr (Or.inr rfl))
    · cases hjump
    · exact Or.inr (Or.inr (Or.inl (ihfalse h.2 ho)))
    · cases hjump
  | loop _ _ _ _ _ ihcondition ihbody =>
    simp only [operations, mem_cons, mem_append, not_mem_nil, or_false] at ho
    simp only [labels_loop, mem_append, mem_cons, not_mem_nil, or_false]
    rcases ho with rfl | ho | rfl | ho | rfl | rfl
    · cases hjump
    · exact Or.inr (Or.inl (ihcondition h.1 ho))
    · cases hjump
      exact Or.inr (Or.inr (Or.inr rfl))
    · exact Or.inr (Or.inr (Or.inl (ihbody h.2 ho)))
    · cases hjump
      exact Or.inl rfl
    · cases hjump

/-- What the labels of choices and loops are called. -/
def labelKinds : List String :=
  ["else", "end_if", "while", "end_while", "for", "end_for", "ternary_else", "ternary_end"]

/-- The name ends with a number that lies above the first bound, and not above the second. -/
def Numbered (low high : Nat) (name : String) : Prop :=
  ∃ kind ∈ labelKinds, ∃ n : Nat, name = s!"{kind}_{n}" ∧ low < n ∧ n ≤ high

theorem Numbered.mono (h : Numbered low high name) (hlow : low' ≤ low) (hhigh : high ≤ high') :
    Numbered low' high' name := by
  obtain ⟨kind, hkind, n, rfl, hn⟩ := h
  exact ⟨kind, hkind, n, rfl, by omega⟩

theorem Numbered.ne (h : Numbered low middle name)
    (h' : Numbered middle' high name') (hle : middle ≤ middle') : name ≠ name' := by
  obtain ⟨_, -, n, rfl, hn⟩ := h
  obtain ⟨_, -, _, rfl, hn'⟩ := h'
  intro heq
  have := eq_of_numbered heq
  omega

/-- The labels of the code are numbered between the bounds, each with a number of its own. -/
structure Labelled (low high : Nat) (code : CodeTree) : Prop where
  structured : code.IsStructured
  nodup : code.labels.Nodup
  numbered : ∀ name ∈ code.labels, Numbered low high name
  le : low ≤ high

namespace Labelled

variable {low middle high : Nat}

theorem empty : empty.Labelled low low := ⟨trivial, by simp, by simp, Nat.le_refl _⟩

theorem plain {op} (hlabel : op.isLabel = false) (hjump : op.jumpTarget? = none) :
    (plain op).Labelled low low where
  structured := ⟨hlabel, hjump⟩
  nodup := by simp [labels_plain hlabel]
  numbered := by simp [labels_plain hlabel]
  le := Nat.le_refl _

theorem append {first second : CodeTree} (h : first.Labelled low middle) (h' : second.Labelled middle high) :
    (first ++ second).Labelled low high where
  structured := ⟨h.structured, h'.structured⟩
  nodup := by
    rw [labels_append]
    exact nodup_append.mpr ⟨h.nodup, h'.nodup, fun name hname name' hname' =>
      (h.numbered name hname).ne (h'.numbered name' hname') (Nat.le_refl _)⟩
  numbered := by
    intro name hname
    rcases mem_append.mp (labels_append .. ▸ hname) with hname | hname
    · exact (h.numbered name hname).mono (Nat.le_refl _) h'.le
    · exact (h'.numbered name hname).mono h.le (Nat.le_refl _)
  le := Nat.le_trans h.le h'.le

/-- Two names made before the labels of the code differ from them, and from each other. -/
theorem behind {rest : CodeTree} {names : List String} (h : rest.Labelled (low + 2) high)
    (hfirst : Numbered low (low + 1) first) (hsecond : Numbered (low + 1) (low + 2) second)
    (hnames : names.Perm (first :: second :: rest.labels)) : names.Nodup ∧ ∀ name ∈ names, Numbered low high name := by
  have hle := h.le
  constructor
  · rw [hnames.nodup_iff, nodup_cons, nodup_cons, mem_cons, not_or]
    refine ⟨⟨hfirst.ne hsecond (Nat.le_refl _), fun hmem => ?_⟩, fun hmem => ?_, h.nodup⟩
    · exact hfirst.ne (h.numbered first hmem) (by omega) rfl
    · exact hsecond.ne (h.numbered second hmem) (Nat.le_refl _) rfl
  · intro name hname
    rcases mem_cons.mp (hnames.subset hname) with rfl | hname
    · exact hfirst.mono (Nat.le_refl _) (by omega)
    · rcases mem_cons.mp hname with rfl | hname
      · exact hsecond.mono (by omega) (by omega)
      · exact (h.numbered name hname).mono (by omega) (Nat.le_refl _)

/-- A choice whose labels were made before its condition was lowered. -/
theorem choice {cond whenTrue whenFalse : CodeTree}
    (helse : Numbered low (low + 1) elseLabel) (hend : Numbered (low + 1) (low + 2) endLabel)
    (hcond : cond.Labelled (low + 2) middle) (htrue : whenTrue.Labelled middle middle')
    (hfalse : whenFalse.Labelled middle' high) :
    (cond ++ .branch test elseLabel endLabel whenTrue whenFalse).Labelled low high := by
  have hparts := (hcond.append htrue).append hfalse
  have hperm : (cond ++ branch test elseLabel endLabel whenTrue whenFalse).labels.Perm
      (elseLabel :: endLabel :: (cond ++ whenTrue ++ whenFalse).labels) := by
    simp only [labels_append, labels_branch, ← append_assoc]
    exact perm_middle.trans (Perm.cons _ (by
      rw [← append_assoc]
      exact perm_append_singleton _ _))
  obtain ⟨hnodup, hnumbered⟩ := hparts.behind helse hend hperm
  exact ⟨⟨hcond.structured, htrue.structured, hfalse.structured⟩, hnodup, hnumbered, by have := hparts.le; omega⟩

theorem loop {cond body : CodeTree}
    (hheader : Numbered low (low + 1) header) (hexit : Numbered (low + 1) (low + 2) exit)
    (hcond : cond.Labelled (low + 2) middle) (hbody : body.Labelled middle high) :
    (loop header exit cond test body).Labelled low high := by
  have hparts := hcond.append hbody
  have hperm : (CodeTree.loop header exit cond test body).labels.Perm
      (header :: exit :: (cond ++ body).labels) := by
    simp only [labels_append, labels_loop, ← append_assoc]
    exact Perm.cons _ (perm_append_singleton _ _)
  obtain ⟨hnodup, hnumbered⟩ := hparts.behind hheader hexit hperm
  exact ⟨⟨hcond.structured, hbody.structured⟩, hnodup, hnumbered, by have := hparts.le; omega⟩

end Labelled

end CodeTree

end Retarget
