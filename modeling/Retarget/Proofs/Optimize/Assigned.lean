import Retarget.Proofs.Optimize.Pipeline

/-!
# Optimised code reads only what is assigned

The passes remove and retarget the instructions that assign registers. They do so only where nothing is lost:
the register is assigned before, or nothing else reads it. So a procedure that reads only what is assigned does
so behind every pass, and its jumps still lead to its labels.
-/
namespace Retarget

open List Operation Set

/-! ## Code with an instruction less -/

namespace Flows

variable {entries : Entries} {before middle behind : Set Numeral} {pre post : List Operation} {x y z : Operation}

/-- What gives a value only to registers that are assigned already may be left out. -/
theorem of_after (hlabel : x.isLabel = false) (hleaves : x.leaves = false) (hgiven : x.given ⊆ middle)
    (h : Flows entries (x.after entries middle) post behind) : Flows entries middle post behind := by
  refine h.mono ?_ subset_rfl
  rw [after_eq hlabel, hleaves]
  exact union_subset subset_rfl hgiven

/-- A register that nothing reads may be taken out of all sets. -/
theorem drop {id code} (h : Flows entries before code behind) (hreads : ∀ op ∈ code, ∀ r ∈ op.reads, r.id ≠ id) :
    Flows (fun name => entries name \ {id}) (before \ {id}) code (behind \ {id}) := by
  have hmono : ∀ s t : Set Numeral, s ⊆ t → s \ {id} ⊆ t \ {id} := fun _ _ hsub _ hid => ⟨hsub hid.1, hid.2⟩
  refine h.map hmono ?_ fun op hop r hr s hs => ⟨hs, hreads op hop r hr⟩
  rintro s _ _ ⟨hother | hother, hne⟩
  · exact mem_union_left _ ⟨hother, hne⟩
  · exact mem_union_right _ hother

end Flows

theorem Operation.Permitted.move {source} (h : source.id ∈ before) :
    (move source target).Permitted entries before := by
  refine ⟨fun r hr => mem_singleton.mp hr ▸ h, fun name hname => ?_, rfl⟩
  rcases hname with hname | hname <;> cases hname

theorem Operation.given_subset {op : Operation} (h : op.results = [r]) (hr : r.id ∈ middle) : op.given ⊆ middle := by
  rintro _ ⟨s, hs, rfl⟩
  rw [h, List.mem_singleton] at hs
  exact hs ▸ hr

section
variable {f g : Procedure} {pre post : List Instruction} {x y z : Instruction} {entries : Entries}
  {before behind : Set Numeral}

theorem Procedure.Replaces.operations_before (h : f.Replaces g pre old new post) :
    f.operations = pre.map (·.operation) ++ (old.map (·.operation) ++ post.map (·.operation)) := by
  simp [operations, h.before]

theorem Procedure.Replaces.operations_after (h : f.Replaces g pre old new post) :
    g.operations = pre.map (·.operation) ++ (new.map (·.operation) ++ post.map (·.operation)) := by
  simp [operations, h.after]

theorem Removable.flows (h : Removable f pre x post)
    (hflows : Flows entries before (pre.map (·.operation) ++ x.operation :: post.map (·.operation)) behind) :
    Flows entries before (pre.map (·.operation) ++ post.map (·.operation)) behind := by
  cases h with
  | @selfMove s t op same =>
    obtain ⟨_, hpre, hx, hpost⟩ := hflows.exists_of_append
    rw [op] at hx hpost
    exact hpre.append (hpost.of_after rfl rfl (given_subset rfl (same ▸ hx.reads s (.head _))))
  | @label name op =>
    obtain ⟨_, hpre, hx, hpost⟩ := hflows.exists_of_append
    rw [op] at hx hpost
    exact hpre.append (hpost.mono (hx.meets name (Or.inr rfl)) subset_rfl)
  | @goto name op next =>
    obtain ⟨y, _, rfl, hy⟩ := next
    obtain ⟨_, hpre, hx, hpost⟩ := hflows.exists_of_append
    rw [map_cons, hy] at hpost ⊢
    rw [op] at hx
    exact hpre.append (.label (hx.meets name (Or.inl rfl)) hpost.2)
  | @copyBack _ w a b c d isBefore move op source =>
    subst isBefore
    simp only [map_append, map_cons, map_nil, append_assoc, cons_append,
      nil_append] at hflows ⊢
    obtain ⟨_, hpre, hw, _, hpost⟩ := hflows.exists_of_append
    refine hpre.append ⟨hw, hpost.of_after (by rw [op]; rfl) (by rw [op]; rfl) ?_⟩
    -- the way back ends where the move came from
    rw [move] at hw ⊢
    rw [op]
    exact given_subset rfl (source ▸ Or.inl (hw.reads a (.head _)))
  | @unreachable _ w isBefore leaves =>
    subst isBefore
    simp only [map_append, map_cons, map_nil, append_assoc, cons_append,
      nil_append] at hflows ⊢
    obtain ⟨middle, hpre, hw, _, hpost⟩ := hflows.exists_of_append
    have hall : w.operation.after entries middle = univ := by
      rcases leaves with ⟨_, hop⟩ | ⟨r, hop⟩ <;> rw [hop] <;> rfl
    refine hpre.append ⟨hw, hpost.mono ?_ subset_rfl⟩
    rw [hall]
    exact subset_univ _

theorem Cancels.flows (h : Cancels x y d d' r s) (hflows : Flows entries before
      (pre.map (·.operation) ++ x.operation :: y.operation :: post.map (·.operation)) behind) :
    Flows entries before (pre.map (·.operation) ++ post.map (·.operation)) behind := by
  obtain ⟨middle, hpre, hx, _, hpost⟩ := hflows.exists_of_append
  rw [h.first] at hx hpost
  rw [h.second] at hpost
  have hr : r.id ∈ middle := hx.reads r (.head _)
  refine hpre.append (.of_after rfl rfl (given_subset rfl hr) (.of_after rfl rfl ?_ hpost))
  exact given_subset rfl (h.same ▸ Or.inl hr)

end

/-! ## One instruction for two -/

theorem Operation.results_mapReads {op : Operation} {φ : Register → Register}
    (h : ∀ direction r, op ≠ .step direction r) : (op.mapReads φ).results = op.results := by
  cases op with
  | step direction r => exact absurd rfl (h direction r)
  | call callee => cases callee <;> rfl
  | _ => rfl

namespace Fuses

variable {t : Register} {x y z : Operation}

/-- Whatever the one operation reads, one of the two reads; it does not read the temporary. -/
theorem reads (h : Fuses t x y z) (hx : ∀ r ∈ x.reads, r.id ≠ t.id) :
    ∀ r ∈ z.reads, r.id ≠ t.id ∧ (r ∈ x.reads ∨ r ∈ y.reads) := by
  intro r hr
  cases h with
  | forward =>
    rw [reads_mapWrites] at hr
    exact ⟨hx r hr, Or.inl hr⟩
  | compareRight _ _ other =>
    obtain rfl := mem_singleton.mp hr
    exact ⟨other, Or.inr (.head _)⟩
  | compareLeft _ _ other =>
    obtain rfl := mem_singleton.mp hr
    exact ⟨other, Or.inr (.tail _ (.head _))⟩
  | subtract => exact ⟨hx r hr, Or.inl hr⟩
  | @propagate _ _ _ other =>
    rw [reads_mapReads] at hr
    obtain ⟨s, hs, rfl⟩ := mem_map.mp hr
    by_cases hsame : s.same t = true
    · rw [if_pos hsame]
      exact ⟨other, Or.inl (.head _)⟩
    · rw [if_neg hsame]
      exact ⟨fun hid => hsame (Register.same_iff.mpr hid), Or.inr hs⟩

/-- The one operation goes where the second does. -/
theorem jumpTarget?_eq (h : Fuses t x y z) : z.jumpTarget? = y.jumpTarget? := by
  cases h with
  | forward dest => cases x <;> first | rfl | cases dest
  | propagate => cases y <;> rfl
  | _ => rfl

theorem leaves_eq (h : Fuses t x y z) : x.leaves = false ∧ z.leaves = y.leaves := by
  cases h with
  | forward dest => cases x <;> first | exact ⟨rfl, rfl⟩ | cases dest
  | propagate => exact ⟨rfl, by cases y <;> rfl⟩
  | _ => exact ⟨rfl, rfl⟩

/-- The first gives the temporary its value, the one what the second gives. -/
theorem results_eq (h : Fuses t x y z) (hx : x.results = x.writes) (hy : y.results = y.writes) :
    x.results = [t] ∧ z.results = y.results ∧ z.results = z.writes := by
  cases h with
  | forward dest =>
    cases x with
    | call callee _ result =>
      cases result with
      | none => cases dest
      | some =>
        cases dest
        cases callee with
        | routine => cases hx
        | function => exact ⟨rfl, rfl, rfl⟩
    | step | label | goto | gotoIfFalse | ret | store | unknown => cases dest
    | _ =>
      cases dest
      exact ⟨rfl, rfl, rfl⟩
  | propagate _ _ _ notStep =>
    exact ⟨rfl, results_mapReads notStep,
      by rw [results_mapReads notStep, writes_mapReads notStep, hy]⟩
  | _ => exact ⟨rfl, rfl, rfl⟩

end Fuses

theorem Operation.meets_iff {op : Operation} (h : op.isLabel = false) : op.Meets name ↔ op.jumpTarget? = some name := by
  rw [Meets, labelName?_of_not_isLabel h]
  simp

/-- Without the temporary nothing is missed: it was assigned for the second of the two operations alone. -/
theorem Fusion.flows {f} {pre post : List Instruction} {x y z t entries before} (h : Fusion f pre x y z post t)
    (hflows : Flows entries before (pre.map (·.operation) ++ x.operation :: y.operation :: post.map (·.operation)) ∅) :
    Flows (fun name => entries name \ {t.id}) before
      (pre.map (·.operation) ++ z.operation :: post.map (·.operation)) ∅ := by
  obtain ⟨middle, hpre, hx, hy, hpost⟩ := hflows.exists_of_append
  obtain ⟨hxlabel, hylabel, hzlabel⟩ := h.fuses.isLabel_eq
  obtain ⟨hxleaves, hzleaves⟩ := h.fuses.leaves_eq
  obtain ⟨hxresults, hzresults, hzwrites⟩ := h.fuses.results_eq hx.results hy.results
  have hxafter : ∀ id ∈ x.operation.after entries middle, id ≠ t.id → id ∈ middle := by
    intro _ hid hne
    rw [after_eq hxlabel, hxleaves] at hid
    rcases hid with hid | ⟨r, hr, rfl⟩
    · exact hid
    · rw [hxresults, List.mem_singleton] at hr
      exact absurd (congrArg Register.id hr) hne
  have hreads (code : List Instruction) (hcode : ∀ i ∈ code, i ∈ pre ++ x :: post) :
      ∀ op ∈ code.map (·.operation), ∀ r ∈ op.reads, r.id ≠ t.id := by
    intro _ hop
    obtain ⟨i, hi, rfl⟩ := mem_map.mp hop
    exact h.notRead i (hcode i hi)
  refine Flows.append ((hpre.drop (hreads pre (by simp +contextual))).mono (fun _ hid => hid.1) subset_rfl)
    ⟨⟨?_, ?_, hzwrites⟩, ?_⟩
  · intro r hr
    obtain ⟨hne, hread⟩ := h.fuses.reads (h.notRead x (by simp)) r hr
    rcases hread with hr | hr
    · exact ⟨hx.reads r hr, hne⟩
    · exact ⟨hxafter _ (hy.reads r hr) hne, hne⟩
  · intro name hname id hid
    rw [meets_iff hzlabel, h.fuses.jumpTarget?_eq, ← meets_iff hylabel] at hname
    exact ⟨hxafter id (hy.meets name hname hid.1) hid.2, hid.2⟩
  · refine (hpost.drop (hreads post (by simp +contextual))).mono ?_ (empty_subset _)
    rintro id ⟨hid, hne⟩
    rw [after_eq hylabel] at hid
    rw [after_eq hzlabel, hzleaves]
    by_cases hleaves : y.operation.leaves = true
    · rw [if_pos hleaves]
      trivial
    · rw [if_neg hleaves] at hid ⊢
      rcases hid with hid | ⟨r, hr, rfl⟩
      · exact mem_union_left _ ⟨hxafter id hid hne, hne⟩
      · exact mem_union_right _ ⟨r, hzresults ▸ hr, rfl⟩

/-! ## Procedures that may be optimised -/

/-- What the passes rely on and keep: the procedure reads only what is assigned, its registers are those of its
table, its labels have names of their own, and binary operations are on registers of one type. -/
structure Procedure.Regular (f : Procedure) : Prop where
  prepared : f.Prepared
  numbered : f.registers.IsNumbered
  parameters : ∀ q ∈ f.parameters, q.register ∈ f.registers
  mentions : ∀ i ∈ f.instructions, ∀ r ∈ i.operation.mentions, r ∈ f.registers
  labels : (f.instructions.filterMap (·.operation.labelName?)).Nodup
  named : ∀ i ∈ f.instructions, i.operation ≠ .label ""
  operands : ∀ i ∈ f.instructions, ∀ operator l r d, i.operation = .binary operator l r d →
    l.type = d.type ∧ r.type = d.type

namespace Procedure

variable {f g : Procedure}

theorem Regular.tidy (hf : f.Regular) : f.Tidy where
  labels := hf.labels
  named := hf.named
  types r hr s hs hid := by
    obtain ⟨i, hi, hr⟩ := mem_flatMap.mp hr
    obtain ⟨j, hj, hs⟩ := mem_flatMap.mp hs
    rw [hf.numbered.eq_of_id (hf.mentions i hi r hr) (hf.mentions j hj s hs) hid]
  operands := hf.operands

/-- A jump still finds its label if only labels without jumps to them are left out. -/
theorem Replaces.jumps (hr : f.Replaces g pre old new post)
    (hf : ∀ i ∈ f.instructions, ∀ name, i.operation.jumpTarget? = some name →
      ∃ j ∈ f.instructions, j.operation = .label name) (hnew : ∀ i ∈ new, ∀ name, i.operation.jumpTarget? = some name →
      ∃ j ∈ f.instructions, j.operation.jumpTarget? = some name)
    (hold : ∀ i ∈ old, ∀ name, i.operation = .label name → ∀ j ∈ f.instructions, j.operation.jumpTarget? ≠ some name) :
    ∀ i ∈ g.instructions, ∀ name, i.operation.jumpTarget? = some name →
      ∃ j ∈ g.instructions, j.operation = .label name := by
  intro i hi name hjump
  obtain ⟨k, hk, hkjump⟩ : ∃ k ∈ f.instructions, k.operation.jumpTarget? = some name := by
    rcases hr.mem hi with hi | hi
    · exact ⟨i, hi, hjump⟩
    · exact hnew i hi name hjump
  obtain ⟨j, hj, hlabel⟩ := hf k hk name hkjump
  refine ⟨j, ?_, hlabel⟩
  have hnot : j ∉ old := fun hj => hold j hj name hlabel k hk hkjump
  rw [hr.before] at hj
  rw [hr.after]
  simp only [mem_append] at hj ⊢
  tauto

end Procedure

/-- A label that is left out has no jumps to it. -/
theorem Removable.unreferenced (h : Removable f pre x post) (hlabel : x.operation = .label name) :
    ∀ j ∈ f.instructions, j.operation.jumpTarget? ≠ some name := by
  cases h with
  | label op unreferenced =>
    cases op.symm.trans hlabel
    exact unreferenced
  | selfMove op | goto op | copyBack _ _ op => cases op.symm.trans hlabel
  | unreachable _ _ op =>
    rw [hlabel] at op
    cases op

namespace Procedure

variable {f g : Procedure}

theorem Simplifies.prepared (h : f.Simplifies g) (hf : f.Prepared) : g.Prepared := by
  obtain ⟨entries, hflows⟩ := hf.flows
  have hids : g.parameterIds = f.parameterIds := by rw [parameterIds, h.sameFace.parameters, parameterIds]
  cases h with
  | @removes pre _ x replaces removable =>
    rw [replaces.operations_before] at hflows
    refine ⟨replaces.jumps hf.jumps (by simp) ?_, entries, ?_⟩
    · intro i hi _ hlabel
      obtain rfl := mem_singleton.mp hi
      exact removable.unreferenced hlabel
    · rw [hids, replaces.operations_after]
      exact removable.flows hflows
  | @cancels pre _ x y d d' r s replaces cancels =>
    rw [replaces.operations_before] at hflows
    refine ⟨replaces.jumps hf.jumps (by simp) ?_, entries, ?_⟩
    · intro i hi _ hlabel
      rcases mem_pair.mp hi with rfl | rfl
      · cases cancels.first.symm.trans hlabel
      · cases cancels.second.symm.trans hlabel
    · rw [hids, replaces.operations_after]
      exact cancels.flows hflows
  | @fuses pre _ x y z t replaces fusion =>
    rw [replaces.operations_before] at hflows
    refine ⟨replaces.jumps hf.jumps ?_ ?_, fun name => entries name \ {t.id}, ?_⟩
    · intro i hi _ hjump
      obtain rfl := mem_singleton.mp hi
      exact ⟨y, replaces.mem_before (.tail _ (.head _)), fusion.fuses.jumpTarget?_eq ▸ hjump⟩
    · intro i hi _ hlabel
      obtain ⟨hx, hy, -⟩ := fusion.fuses.isLabel_eq
      rcases mem_pair.mp hi with rfl | rfl
      · cases hlabel ▸ hx
      · cases hlabel ▸ hy
    · rw [hids, replaces.operations_after]
      exact fusion.flows hflows

theorem Simplifies.regular (h : f.Simplifies g) (hf : f.Regular) : g.Regular := by
  have hprepared := h.prepared hf.prepared
  have htidy := h.tidy hf.tidy
  have hmentions := h.mentions hf.mentions
  obtain ⟨_, rfl⟩ := h.instructions_only
  exact ⟨hprepared, hf.numbered, hf.parameters, hmentions, htidy.labels, htidy.named, htidy.operands⟩

/-! ## Loops for tail calls -/

/-- Saving arguments assigns the registers that they are found in. -/
theorem flows_saveArguments (needsSave : Register → Bool) (args : List Register) (table : RegisterTable)
    (entries : Entries) (hargs : ∀ r ∈ args, r.id ∈ before) :
    ∃ behind, Flows entries before ((saveArguments needsSave args table).1.map (·.operation)) behind ∧
      before ⊆ behind ∧ ∀ s ∈ (saveArguments needsSave args table).2.1, s.id ∈ behind := by
  induction args generalizing table before with
  | nil => exact ⟨before, subset_rfl, subset_rfl, by simp [saveArguments]⟩
  | cons arg rest ih =>
    have hargument := hargs arg (.head _)
    have hrest : ∀ r ∈ rest, r.id ∈ before := fun r hr => hargs r (.tail _ hr)
    rw [saveArguments]
    split
    · obtain ⟨behind, hflows, hsub, hsources⟩ := ih (table.allocate arg.type).2
        fun r hr => mem_union_left (move arg (table.allocate arg.type).1).given (hrest r hr)
      refine ⟨behind, ⟨.move hargument, hflows⟩, subset_union_left.trans hsub, forall_mem_cons.mpr ⟨?_, hsources⟩⟩
      exact hsub (Or.inr ⟨_, .head _, rfl⟩)
    · obtain ⟨behind, hflows, hsub, hsources⟩ := ih table hrest
      exact ⟨behind, hflows, hsub, forall_mem_cons.mpr ⟨hsub hargument, hsources⟩⟩

/-- Moves of what is assigned take nothing away. -/
theorem flows_moves (hcode : ∀ op ∈ code, ∃ source target, op = .move source target ∧ source.id ∈ before) :
    Flows entries before code before := by
  induction code with
  | nil => exact subset_rfl
  | cons op _ ih =>
    obtain ⟨_, _, rfl, hsource⟩ := hcode op (.head _)
    exact ⟨.move hsource, (ih fun other hother => hcode other (.tail _ hother)).mono subset_union_left subset_rfl⟩

theorem flows_rebindParameters (f : Procedure) (args : List Register) (table : RegisterTable) (entries : Entries)
    (hargs : ∀ r ∈ args, r.id ∈ before) :
    Flows entries before ((f.rebindParameters args table).1.map (·.operation)) before := by
  obtain ⟨_, hsaves, hsub, hsources⟩ := flows_saveArguments
    (fun a => f.isParameterRegister a && (f.rebound args).any (·.same a)) args table entries hargs
  rw [rebindParameters]
  simp only [map_append]
  refine hsaves.append ((flows_moves fun op hop => ?_).mono subset_rfl hsub)
  obtain ⟨i, hi, rfl⟩ := mem_map.mp hop
  obtain ⟨⟨q, a, source⟩, hmem, hmove⟩ := mem_filterMap.mp hi
  unfold rebindMove? at hmove
  split at hmove
  · cases hmove
  · cases hmove
    exact ⟨source, q.register, rfl, hsources source (of_mem_zip (of_mem_zip hmem).2).2⟩

/-- The converted code reads only what is assigned if the loop is entered with no more than the parameters, which
are assigned everywhere. -/
theorem Converts.flows {code code' table table' entries before params} (h : f.Converts code table code' table')
    (hflows : Flows entries before (code.map (·.operation)) ∅) (hbefore : params ⊆ before)
    (hentries : ∀ name, params ⊆ entries name) (hloop : entries f.loopLabel ⊆ params) :
    Flows entries before (code'.map (·.operation)) ∅ := by
  induction h generalizing before with
  | nil => exact hflows
  | @plain i _ _ _ _ _ _ ih =>
    refine ⟨hflows.1, ih hflows.2 ?_⟩
    show params ⊆ i.operation.after entries before
    cases i.operation with
    | label name => exact hentries name
    | goto | ret => exact subset_univ _
    | _ => exact hbefore.trans subset_union_left
  | @tail i j _ _ table _ args call _ ih =>
    obtain ⟨_, _, hi, hj, -⟩ := of_tailCall? call
    rw [map_cons, map_cons, hi, hj] at hflows
    obtain ⟨hcall, -, hrest⟩ := hflows
    rw [map_append]
    refine (f.flows_rebindParameters args table entries fun r hr => hcall.reads r hr).append ?_
    exact .goto (hloop.trans hbefore) (ih hrest (subset_univ _))

/-- The name of the loop is not one that the procedure knows. -/
theorem Prepared.not_meets_loopLabel (hf : f.Prepared) {operation} (ho : operation ∈ f.operations) :
    ¬operation.Meets f.loopLabel := by
  have hfree : ∀ i ∈ f.instructions, i.operation.labelName? ≠ some f.loopLabel := by
    intro i hi hlabel
    have hnot := f.loopLabel_spec.2 i hi
    rw [labels_eq_true.mpr hlabel] at hnot
    cases hnot
  obtain ⟨i, hi, rfl⟩ := mem_map.mp ho
  rintro (hjump | hlabel)
  · obtain ⟨j, hj, hlabel⟩ := hf.jumps i hi _ hjump
    exact hfree j hj (by rw [hlabel]; rfl)
  · exact hfree i hi hlabel

/-- The parameters are assigned everywhere, so the loop may be entered with them alone. -/
theorem Prepared.exists_entries (hf : f.Prepared) :
    ∃ entries : Entries, Flows entries {id | id ∈ f.parameterIds} f.operations ∅ ∧
      (∀ name, {id | id ∈ f.parameterIds} ⊆ entries name) ∧ entries f.loopLabel = {id | id ∈ f.parameterIds} := by
  classical
  obtain ⟨entries, hflows⟩ := hf.flows
  generalize {id | id ∈ f.parameterIds} = parameters at hflows ⊢
  refine ⟨fun name => if name = f.loopLabel then parameters else entries name ∪ parameters, ?_, fun name => ?_,
    if_pos rfl⟩
  · have hmono : ∀ s t, s ⊆ t → s ∪ parameters ⊆ t ∪ parameters := fun _ _ => union_subset_union_left _
    have hall := hflows.map hmono (fun s t => (union_right_comm s t parameters).subset) fun _ _ _ _ _ hid => Or.inl hid
    refine (hall.congr fun operation ho name hmeets => ?_).mono (union_self _).subset (empty_subset _)
    have hne : name ≠ f.loopLabel := fun hname => hf.not_meets_loopLabel ho (hname ▸ hmeets)
    exact if_neg hne
  · dsimp only
    split
    · exact subset_rfl
    · exact subset_union_right

theorem Prepared.asLoop (hf : f.Prepared) : f.asLoop.Prepared := by
  have hconverts := f.converts_withoutTailCalls f.instructions f.registers
  obtain ⟨entries, hflows, hentries, hloop⟩ := hf.exists_entries
  rw [asLoop_eq]
  refine ⟨fun i hi name hjump => ?_, entries, ?_⟩
  · rcases mem_cons.mp hi with rfl | hi
    · cases hjump
    · rcases hconverts.mem hi with hi | ⟨_, -, _, _, _, -, hi⟩ | hop
      · obtain ⟨j, hj, hlabel⟩ := hf.jumps i hi name hjump
        have hmem : name ∈ f.instructions.filterMap (·.operation.labelName?) :=
          mem_filterMap.mpr ⟨j, hj, by rw [hlabel]; rfl⟩
        rw [← hconverts.labels_eq] at hmem
        obtain ⟨k, hk, hname⟩ := mem_filterMap.mp hmem
        exact ⟨k, .tail _ hk, eq_label hname⟩
      · obtain ⟨_, _, hop, -⟩ := rebindParameters_moves hi
        rw [hop] at hjump
        cases hjump
      · rw [hop] at hjump
        cases hjump
        exact ⟨_, .head _, rfl⟩
  · exact .label hloop.subset (hloop ▸ hconverts.flows hflows subset_rfl hentries hloop.subset)

theorem Regular.convertTailCalls (hf : f.Regular) : f.convertTailCalls.Regular := by
  rcases f.convertTailCalls_cases with h | h <;> rw [h]
  · exact hf
  · have hconverts := f.converts_withoutTailCalls f.instructions f.registers
    obtain ⟨hnumbered, hsubset, hmentions⟩ := hconverts.mentions hf.parameters (fun _ h => h) hf.mentions
    refine ⟨hf.prepared.asLoop, ?_, fun q hq => ?_, ?_, f.labels_asLoop hf.labels, fun i hi hop => ?_,
      fun i hi operator l r d hop => ?_⟩
    · exact asLoop_eq f ▸ hnumbered hf.numbered
    · exact asLoop_eq f ▸ hsubset _ (hf.parameters q hq)
    · rw [asLoop_eq]
      exact forall_mem_cons.mpr ⟨fun r hr => (by cases hr), hmentions⟩
    · rcases mem_asLoop hi with hi | ⟨_, _, hi⟩ | hi | hi
      · exact hf.named i hi hop
      · cases hi.symm.trans hop
      · cases hi.symm.trans hop
      · exact f.loopLabel_ne_empty (label.inj (hi.symm.trans hop))
    · rcases mem_asLoop hi with hi | ⟨_, _, hi⟩ | hi | hi
      · exact hf.operands i hi operator l r d hop
      · cases hi.symm.trans hop
      · cases hi.symm.trans hop
      · cases hi.symm.trans hop

/-! ## The whole optimiser -/

theorem SameCode.regular (h : f.SameCode g) (hf : f.Regular) : g.Regular := by
  obtain ⟨⟨hjumps, hflows⟩, hnumbered, hparams, hmentions, hlabels, hnamed, hoperands⟩ := hf
  have hids : g.parameterIds = f.parameterIds := by rw [parameterIds, h.face.parameters, parameterIds]
  have hops : g.operations = f.operations := by rw [operations, h.instructions, operations]
  rw [← h.registers] at hnumbered hparams hmentions
  rw [← h.face.parameters] at hparams
  rw [← h.instructions] at hjumps hmentions hlabels hnamed hoperands
  exact ⟨⟨hjumps, by rwa [hids, hops]⟩, hnumbered, hparams, hmentions, hlabels, hnamed, hoperands⟩

theorem PeepholeStage.regular (h : f.PeepholeStage g) (hf : f.Regular) : g.Regular := by
  have hchain := h.simplifies (fun _ h => h.tidy) (fun _ _ h hf => h.regular hf) hf
  clear h
  induction hchain with
  | refl => exact hf
  | tail _ hstep ih => exact hstep.regular ih

/-- A procedure that reads only what is assigned does so when it is optimised. -/
theorem Optimizes.regular (h : f.Optimizes passes g) (hf : f.Regular) : g.Regular := by
  obtain ⟨_, h₁, _, h₂, f₃, h₃, _, h₄, h₅⟩ := h.cases
  have hf₂ := h₂.regular (h₁.regular hf)
  have hf₃ : f₃.Regular := by
    rcases h₃ with rfl | rfl
    · exact hf₂
    · exact hf₂.convertTailCalls
  exact h₅.regular (h₄.regular hf₃)

end Procedure

end Retarget
