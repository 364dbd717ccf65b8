import Mathlib.Data.Set.Basic
import Retarget.Proofs.Code.Tree

/-!
# Registers are assigned before they are read

Code is followed operation by operation with a set of registers that are assigned for certain. For every
label there is a set that is assigned wherever the code goes on there, be it by a jump or from before. Nothing
comes behind a jump or a return but a label, so everything may be said to be assigned there.
-/
namespace Retarget

open List Set

/-- The registers that are assigned for certain at each label. -/
abbrev Entries := String → Set Numeral

namespace Operation

/-- The registers that an operation may give values to. -/
def results : Operation → List Register
  | .call (.routine _) _ _ => []
  | operation => operation.writes

theorem results_subset {op : Operation} : op.results ⊆ op.writes := by
  intro r hr
  unfold results at hr
  split at hr
  · cases hr
  · exact hr

def given (operation : Operation) : Set Numeral := {id | ∃ r ∈ operation.results, r.id = id}

/-- The name of a label that the code goes on at, or comes to. -/
def Meets (operation : Operation) (name : String) : Prop :=
  operation.jumpTarget? = some name ∨ operation.labelName? = some name

/-- Nothing goes on behind the operation. -/
def leaves : Operation → Bool
  | .goto _ | .ret _ => true
  | _ => false

/-- What is assigned behind the operation. -/
def after (entries : Entries) (before : Set Numeral) : Operation → Set Numeral
  | .label name => entries name
  | .goto _ | .ret _ => Set.univ
  | operation => before ∪ operation.given

/-- The operation reads what is assigned, leads to labels that ask for no more, and gives values to all registers
that it writes. -/
structure Permitted (entries : Entries) (before : Set Numeral) (operation : Operation) : Prop where
  reads : ∀ r ∈ operation.reads, r.id ∈ before
  meets : ∀ name, operation.Meets name → entries name ⊆ before
  results : operation.results = operation.writes

variable {entries : Entries} {before before' : Set Numeral} {operation : Operation}

theorem Permitted.mono (h : operation.Permitted entries before) (hsub : before ⊆ before') :
    operation.Permitted entries before' :=
  ⟨fun r hr => hsub (h.reads r hr), fun name hname => (h.meets name hname).trans hsub, h.results⟩

theorem after_mono (hsub : before ⊆ before') : operation.after entries before ⊆ operation.after entries before' := by
  cases operation with
  | label | goto | ret => exact subset_rfl
  | _ => exact union_subset_union_left _ hsub

theorem after_eq (h : operation.isLabel = false) :
    operation.after entries before = if operation.leaves then univ else before ∪ operation.given := by
  cases operation <;> first | rfl | cases h

theorem subset_after (h : operation.isLabel = false) : before ⊆ operation.after entries before := by
  cases operation with
  | label => cases h
  | goto | ret => exact subset_univ _
  | _ => exact subset_union_left

theorem given_subset_after (h : operation.isLabel = false) : operation.given ⊆ operation.after entries before := by
  cases operation with
  | label => cases h
  | goto | ret => exact subset_univ _
  | _ => exact subset_union_right

end Operation

/-- The code reads only what is assigned; the last set is assigned behind it. -/
def Flows (entries : Entries) : Set Numeral → List Operation → Set Numeral → Prop
  | before, [], behind => behind ⊆ before
  | before, operation :: rest, behind =>
    operation.Permitted entries before ∧ Flows entries (operation.after entries before) rest behind

namespace Flows

variable {entries entries' : Entries} {before before' middle behind behind' : Set Numeral}
  {code code' : List Operation}

theorem mono (h : Flows entries before code behind) (hbefore : before ⊆ before') (hbehind : behind' ⊆ behind) :
    Flows entries before' code behind' := by
  induction code generalizing before before' with
  | nil => exact hbehind.trans (h.trans hbefore)
  | cons _ _ ih => exact ⟨h.1.mono hbefore, ih h.2 (Operation.after_mono hbefore)⟩

theorem append (h : Flows entries before code middle) (h' : Flows entries middle code' behind) :
    Flows entries before (code ++ code') behind := by
  induction code generalizing before with
  | nil => exact h'.mono h subset_rfl
  | cons op _ ih => exact ⟨h.1, ih h.2⟩

theorem exists_of_append (h : Flows entries before (code ++ code') behind) :
    ∃ middle, Flows entries before code middle ∧ Flows entries middle code' behind := by
  induction code generalizing before with
  | nil => exact ⟨before, subset_rfl, h⟩
  | cons op _ ih =>
    obtain ⟨middle, hrest, h'⟩ := ih h.2
    exact ⟨middle, ⟨h.1, hrest⟩, h'⟩

/-- Only the labels that the code meets count. -/
theorem congr (h : Flows entries before code behind)
    (heq : ∀ op ∈ code, ∀ name, op.Meets name → entries' name = entries name) : Flows entries' before code behind := by
  induction code generalizing before with
  | nil => exact h
  | cons op _ ih =>
    refine ⟨⟨h.1.reads, fun name hname => ?_, h.1.results⟩, ?_⟩
    · rw [heq op mem_cons_self name hname]
      exact h.1.meets name hname
    · have hafter : op.after entries' before = op.after entries before := by
        cases op with
        | label name => exact heq _ mem_cons_self name (Or.inr rfl)
        | _ => rfl
      rw [hafter]
      exact ih h.2 fun other hother => heq other (mem_cons_of_mem _ hother)

/-- The sets may be changed alike everywhere, if no register that is read is lost and none is gained but with
those that are assigned already. -/
theorem map {change : Set Numeral → Set Numeral} (h : Flows entries before code behind)
    (hmono : ∀ s t, s ⊆ t → change s ⊆ change t) (hunion : ∀ s t, change (s ∪ t) ⊆ change s ∪ t)
    (hreads : ∀ op ∈ code, ∀ r ∈ op.reads, ∀ s, r.id ∈ s → r.id ∈ change s) :
    Flows (fun name => change (entries name)) (change before) code (change behind) := by
  induction code generalizing before with
  | nil => exact hmono _ _ h
  | cons op _ ih =>
    refine ⟨⟨fun r hr => hreads op mem_cons_self r hr _ (h.1.reads r hr), fun name hname =>
      hmono _ _ (h.1.meets name hname), h.1.results⟩, ?_⟩
    refine (ih h.2 fun other hother => hreads other (mem_cons_of_mem _ hother)).mono ?_ subset_rfl
    cases op with
    | label | goto | ret => first | exact subset_rfl | exact subset_univ _
    | _ => exact hunion _ _

theorem label (hname : entries name ⊆ before) (h : Flows entries (entries name) code behind) :
    Flows entries before (.label name :: code) behind := by
  refine ⟨⟨by simp [Operation.reads], fun other hother => ?_, rfl⟩, h⟩
  rcases hother with hother | hother
  · cases hother
  · cases hother
    exact hname

theorem goto (hname : entries name ⊆ before) (h : Flows entries univ code behind) :
    Flows entries before (.goto name :: code) behind := by
  refine ⟨⟨by simp [Operation.reads], fun other hother => ?_, rfl⟩, h⟩
  rcases hother with hother | hother
  · cases hother
    exact hname
  · cases hother

theorem gotoIfFalse {test} (htest : test.id ∈ before) (hname : entries name ⊆ before)
    (h : Flows entries before code behind) : Flows entries before (.gotoIfFalse test name :: code) behind := by
  refine ⟨⟨by simpa [Operation.reads] using htest, fun other hother => ?_, rfl⟩,
    h.mono subset_union_left subset_rfl⟩
  rcases hother with hother | hother
  · cases hother
    exact hname
  · cases hother

theorem tail (h : Flows entries before (op :: code) behind) (hstays : op.leaves = false) :
    Flows entries (before ∪ op.given) code behind := by
  refine h.2.mono ?_ subset_rfl
  cases op with
  | label name => exact (h.1.meets name (Or.inr rfl)).trans subset_union_left
  | goto | ret => cases hstays
  | _ => exact subset_rfl

theorem jump (h : Flows entries before (code ++ .label name :: code') behind) (hmiddle : entries name ⊆ middle) :
    Flows entries middle (.label name :: code') behind := by
  obtain ⟨_, -, -, hrest⟩ := h.exists_of_append
  exact label hmiddle hrest

end Flows

/-! ## Procedures -/

def Procedure.operations (f : Procedure) : List Operation := f.instructions.map (·.operation)

/-- Jumps of the procedure lead to its labels, and it reads only what is assigned, given its parameters. -/
structure Procedure.Prepared (f : Procedure) : Prop where
  jumps : ∀ i ∈ f.instructions, ∀ name, i.operation.jumpTarget? = some name →
    ∃ j ∈ f.instructions, j.operation = .label name
  flows : ∃ entries, Flows entries {id | id ∈ f.parameterIds} f.operations ∅

/-! ## Structured code -/

namespace CodeTree

/-- What is assigned behind the code. A loop is left behind its condition. -/
def assigned : CodeTree → Set Numeral → Set Numeral
  | .empty, before => before
  | .plain operation, before => operation.after (fun _ => ∅) before
  | .append first second, before => second.assigned (first.assigned before)
  | .branch _ _ _ whenTrue whenFalse, before => whenTrue.assigned before ∩ whenFalse.assigned before
  | .loop _ _ condition _ _, before => condition.assigned before

/-- The code reads only what is assigned for certain. -/
def ReadsAssigned : CodeTree → Set Numeral → Prop
  | .empty, _ => True
  | .plain operation, before => (∀ r ∈ operation.reads, r.id ∈ before) ∧ operation.results = operation.writes
  | .append first second, before => first.ReadsAssigned before ∧ second.ReadsAssigned (first.assigned before)
  | .branch test _ _ whenTrue whenFalse, before =>
    test.id ∈ before ∧ whenTrue.ReadsAssigned before ∧ whenFalse.ReadsAssigned before
  | .loop _ _ condition test body, before =>
    condition.ReadsAssigned before ∧ test.id ∈ condition.assigned before ∧
      body.ReadsAssigned (condition.assigned before)

variable {code : CodeTree} {before : Set Numeral}

theorem subset_assigned (h : code.IsStructured) : before ⊆ code.assigned before := by
  induction code generalizing before with
  | empty => exact subset_rfl
  | plain => exact Operation.subset_after h.1
  | append _ _ ihfirst ihsecond => exact (ihfirst h.1).trans (ihsecond h.2)
  | branch _ _ _ _ _ ihtrue ihfalse => exact subset_inter (ihtrue h.1) (ihfalse h.2)
  | loop _ _ _ _ _ ihcondition => exact ihcondition h.1

/-- Every label that structured code meets is one of its own. -/
theorem IsStructured.mem_labels (h : code.IsStructured) {operation name} (ho : operation ∈ code.operations)
    (hmeets : operation.Meets name) : name ∈ code.labels := by
  rcases hmeets with hjump | hlabel
  · exact h.jumps ho hjump
  · exact mem_filterMap.mpr ⟨operation, ho, hlabel⟩

/-- Only the entries of its own labels count for structured code. -/
theorem IsStructured.flows_congr (h : code.IsStructured)
    (hflows : Flows entries before code.operations behind) (heq : ∀ name ∈ code.labels, entries' name = entries name) :
    Flows entries' before code.operations behind :=
  hflows.congr fun _ ho name hmeets => heq name (h.mem_labels ho hmeets)

/-- Entries for two parts with different labels, and for two more labels. -/
theorem exists_entries {first second : CodeTree}
    (hnodup : (name :: name' :: (first.labels ++ second.labels)).Nodup) (entries entries' : Entries)
    (entry entry' : Set Numeral) :
    ∃ all : Entries, all name = entry ∧ all name' = entry' ∧ (∀ n ∈ first.labels, all n = entries n) ∧
      ∀ n ∈ second.labels, all n = entries' n := by
  classical
  obtain ⟨hname, hname', -, -, hdisjoint⟩ : _ ∧ _ ∧ _ ∧ _ ∧ _ := by
    simpa only [nodup_cons, nodup_append, mem_cons, mem_append, not_or] using hnodup
  refine ⟨fun n => if n = name then entry else if n = name' then entry' else
    if n ∈ first.labels then entries n else entries' n, if_pos rfl, ?_, fun n hn => ?_, fun n hn => ?_⟩
  · exact (if_neg (Ne.symm hname.1)).trans (if_pos rfl)
  · have hn₁ : n ≠ name := fun h => hname.2.1 (h ▸ hn)
    have hn₂ : n ≠ name' := fun h => hname'.1 (h ▸ hn)
    simp only [hn₁, hn₂, hn, if_false, if_true]
  · have hn₁ : n ≠ name := fun h => hname.2.2 (h ▸ hn)
    have hn₂ : n ≠ name' := fun h => hname'.2 (h ▸ hn)
    have hn₃ : n ∉ first.labels := fun h => hdisjoint n h n hn rfl
    simp only [hn₁, hn₂, hn₃, if_false]

/-- Code that reads only what is assigned can be followed, with the right entries. -/
theorem exists_flows (hreads : code.ReadsAssigned before) (hstruct : code.IsStructured)
    (hnodup : code.labels.Nodup) : ∃ entries, Flows entries before code.operations (code.assigned before) := by
  induction code generalizing before with
  | empty => exact ⟨fun _ => ∅, subset_rfl⟩
  | plain => exact ⟨fun _ => ∅, ⟨hreads.1, fun name _ => empty_subset _, hreads.2⟩, subset_rfl⟩
  | append first second ihfirst ihsecond =>
    obtain ⟨hnodup, hnodup', hdisjoint⟩ := nodup_append.mp (labels_append first second ▸ hnodup)
    obtain ⟨entries, hfirst⟩ := ihfirst hreads.1 hstruct.1 hnodup
    obtain ⟨entries', hsecond⟩ := ihsecond hreads.2 hstruct.2 hnodup'
    classical
    refine ⟨fun n => if n ∈ first.labels then entries n else entries' n, .append
      (hstruct.1.flows_congr hfirst fun n hn => if_pos hn)
      (hstruct.2.flows_congr hsecond fun n hn => if_neg fun h => hdisjoint n h n hn rfl)⟩
  | branch _ elseLabel endLabel whenTrue whenFalse ihtrue ihfalse =>
    rw [labels_branch] at hnodup
    have hall : (elseLabel :: endLabel :: (whenTrue.labels ++ whenFalse.labels)).Nodup := by grind
    obtain ⟨entries, htrue⟩ := ihtrue hreads.2.1 hstruct.1 (by grind)
    obtain ⟨entries', hfalse⟩ := ihfalse hreads.2.2 hstruct.2 (by grind)
    obtain ⟨all, helse, hend, hentries, hentries'⟩ := exists_entries hall entries entries' before
      (whenTrue.assigned before ∩ whenFalse.assigned before)
    refine ⟨all, .gotoIfFalse hreads.1 helse.subset ?_⟩
    refine Flows.append (hstruct.1.flows_congr htrue hentries) ?_
    refine .goto (hend.subset.trans inter_subset_left) (.label (subset_univ _) ?_)
    rw [helse]
    refine Flows.append (hstruct.2.flows_congr hfalse hentries') ?_
    exact .label (hend.subset.trans inter_subset_right) hend.superset
  | loop header exit cond _ body ihcondition ihbody =>
    rw [labels_loop] at hnodup
    have hall : (header :: exit :: (cond.labels ++ body.labels)).Nodup := by grind
    obtain ⟨entries, hcond⟩ := ihcondition hreads.1 hstruct.1 (by grind)
    obtain ⟨entries', hbody⟩ := ihbody hreads.2.2 hstruct.2 (by grind)
    obtain ⟨all, hheader, hexit, hentries, hentries'⟩ := exists_entries hall entries entries' before
      (cond.assigned before)
    refine ⟨all, .label hheader.subset ?_⟩
    rw [hheader]
    refine Flows.append (hstruct.1.flows_congr hcond hentries) ?_
    refine .gotoIfFalse hreads.2.1 hexit.subset ?_
    refine Flows.append (hstruct.2.flows_congr hbody hentries') ?_
    -- the loop is entered again with no less than at first
    have hagain : before ⊆ body.assigned (cond.assigned before) :=
      (subset_assigned hstruct.1).trans (subset_assigned hstruct.2)
    exact .goto (hheader.subset.trans hagain) (.label (subset_univ _) hexit.superset)

end CodeTree

end Retarget
