import Mathlib.Data.List.Perm.Subperm
import Retarget.Proofs.Optimize.Rebinding

/-!
# Tail calls as jumps

A procedure whose tail calls have become jumps keeps one activation where there was one for every call. What
the activation holds from earlier rounds is never read. On the way back, the activations that are no longer
there would only have handed on the result.
-/
namespace Retarget

open List Operation

namespace Procedure

variable {f : Procedure}

/-! ## The label of the loop -/

theorem loopLabels_nodup (f : Procedure) : f.loopLabels.Nodup := by
  refine nodup_cons.mpr ⟨fun h => ?_, nodup_range.map fun k l h => ?_⟩
  · obtain ⟨k, -, hk⟩ := mem_map.mp h
    have hlength := congrArg String.length hk
    rw [String.length_append, String.length_append] at hlength
    have hbase : (toString "tail_recursion_loop").length = "tail_recursion_loop".length := rfl
    have hunderscore : (toString "_").length = 1 := by decide
    omega
  · have hkl := eq_of_append_toString h
    omega

/-- There are more names for the loop's label than the procedure has labels, so one of them is free. -/
theorem loopLabel_spec (f : Procedure) :
    f.loopLabel ∈ f.loopLabels ∧ ∀ i ∈ f.instructions, i.operation.labels f.loopLabel = false := by
  unfold loopLabel
  cases h : f.loopLabels.find? fun name => !f.instructions.any (·.operation.labels name) with
  | some =>
    refine ⟨mem_of_find?_eq_some h, fun i hi => ?_⟩
    have hfree := find?_some h
    rw [Bool.not_eq_true', any_eq_false] at hfree
    exact Bool.eq_false_iff.mpr (hfree i hi)
  | none =>
    -- every name would be taken, each by an instruction of its own
    exfalso
    have hsubset : f.loopLabels ⊆ f.instructions.filterMap (·.operation.labelName?) := by
      intro name hname
      have htaken := find?_eq_none.mp h name hname
      rw [Bool.not_eq_true, Bool.not_eq_false', any_eq_true] at htaken
      obtain ⟨i, hi, hl⟩ := htaken
      exact mem_filterMap.mpr ⟨i, hi, labels_eq_true.mp hl⟩
    have hle := ((loopLabels_nodup f).subperm hsubset).length_le
    have hle' := length_filterMap_le (fun i : Instruction => i.operation.labelName?) f.instructions
    have hlen : f.loopLabels.length = f.instructions.length + 1 := by simp [loopLabels]
    omega

theorem loopLabel_ne_empty (f : Procedure) : f.loopLabel ≠ "" := by
  intro h
  have hmem := f.loopLabel_spec.1
  rw [h] at hmem
  rcases mem_cons.mp hmem with hempty | hmem
  · exact absurd hempty (by decide)
  · obtain ⟨k, -, hk⟩ := mem_map.mp hmem
    have hlength := congrArg String.length hk
    rw [String.length_append, String.length_append] at hlength
    have hunderscore : (toString "_").length = 1 := by decide
    have hempty : "".length = 0 := rfl
    omega

end Procedure

/-! ## The converted code -/

theorem Operation.of_tailCall? {symbol x y args} (h : tailCall? symbol x y = some args) :
    ∃ dest reg, x = .call (.function symbol) args dest ∧ y = .ret reg ∧
      dest.map Register.id = reg.map Register.id := by
  unfold tailCall? at h
  split at h
  · split at h
    · rename_i hs
      cases h
      exact ⟨none, none, by rw [hs], rfl, rfl⟩
    · cases h
  · rename_i callee args' result returned
    split at h
    · rename_i hs
      cases h
      simp only [Bool.and_eq_true, decide_eq_true_eq] at hs
      exact ⟨some result, some returned, by rw [hs.1], rfl, congrArg some (beq_iff_eq.mp hs.2)⟩
    · cases h
  · cases h

namespace Procedure

variable {f : Procedure}

/-- Registers for saved arguments come behind those of the table. -/
theorem prefix_rebindParameters (f : Procedure) (args : List Register) (table : RegisterTable) :
    table <+: (f.rebindParameters args table).2 :=
  (saveArguments_table _ _ _).1

/-- Code and what it becomes, with the tables of registers before and after. -/
inductive Converts (f : Procedure) : List Instruction → RegisterTable → List Instruction → RegisterTable → Prop
  | nil {table : RegisterTable} : Converts f [] table [] table
  | plain {i : Instruction} {code code' : List Instruction} {table table' : RegisterTable}
      (notTail : ∀ j rest, code = j :: rest → tailCall? f.symbol i.operation j.operation = none)
      (rest : Converts f code table code' table') : Converts f (i :: code) table (i :: code') table'
  | tail {i j : Instruction} {code code' : List Instruction} {table table' : RegisterTable}
      {arguments : List Register}
      (call : tailCall? f.symbol i.operation j.operation = some arguments)
      (rest : Converts f code (f.rebindParameters arguments table).2 code' table') :
      Converts f (i :: j :: code) table ((f.rebindParameters arguments table).1 ++
        ⟨.goto f.loopLabel, "Tail call becomes a loop"⟩ :: code') table'

theorem converts_withoutTailCalls (f : Procedure) (code : List Instruction) (table : RegisterTable) :
    f.Converts code table (f.withoutTailCalls f.loopLabel code table).1
      (f.withoutTailCalls f.loopLabel code table).2 := by
  fun_induction withoutTailCalls f f.loopLabel code table with
  | case1 table => exact .nil
  | case2 last table => exact .plain (by simp) .nil
  | case3 first second rest table args hcall moves table' hrebind rest' table'' hrest ih =>
    rw [hrest] at ih
    have hrest' : f.Converts rest (f.rebindParameters args table).2 rest' table'' := by rwa [hrebind]
    have htail := Converts.tail hcall hrest'
    rwa [hrebind] at htail
  | case4 first second rest table hcall rest' table' hrest ih =>
    rw [hrest] at ih
    refine .plain ?_ ih
    rintro j _ ⟨⟩
    exact hcall

namespace Converts

variable {code code' : List Instruction} {table table' : RegisterTable}

section
variable (h : f.Converts code table code' table')
include h

/-- A conversion puts in the moves of calls, and jumps back. -/
theorem mem {i} (hi : i ∈ code') : i ∈ code ∨
    (∃ c ∈ code, ∃ args dest table, c.operation = .call (.function f.symbol) args dest ∧
      i ∈ (f.rebindParameters args table).1) ∨
    i.operation = .goto f.loopLabel := by
  induction h with
  | nil => exact Or.inl hi
  | plain _ _ ih =>
    rcases mem_cons.mp hi with rfl | hi
    · exact Or.inl (.head _)
    · exact (ih hi).imp (.tail _) (.imp_left fun ⟨c, hc, hmoves⟩ => ⟨c, .tail _ hc, hmoves⟩)
  | tail call _ ih =>
    obtain ⟨dest, _, hcall, -⟩ := of_tailCall? call
    rcases mem_append.mp hi with hi | hi
    · exact Or.inr (Or.inl ⟨_, .head _, _, dest, _, hcall, hi⟩)
    · rcases mem_cons.mp hi with rfl | hi
      · exact Or.inr (Or.inr rfl)
      · exact (ih hi).imp (fun hi => .tail _ (.tail _ hi))
          (.imp_left fun ⟨c, hc, hmoves⟩ => ⟨c, .tail _ (.tail _ hc), hmoves⟩)

theorem labels_eq :
    code'.filterMap (·.operation.labelName?) = code.filterMap (·.operation.labelName?) := by
  induction h with
  | nil => rfl
  | plain _ _ ih => simp only [filterMap_cons, ih]
  | @tail i j _ _ table _ args call _ ih =>
    obtain ⟨_, _, hi, hj, -⟩ := of_tailCall? call
    have hmoves : (f.rebindParameters args table).1.filterMap (·.operation.labelName?) = [] :=
      filterMap_eq_nil_iff.mpr fun k hk =>
        labelName?_of_not_isLabel (rebindParameters_isLabel hk)
    have hcall : i.operation.labelName? = none := by rw [hi]; rfl
    have hret : j.operation.labelName? = none := by rw [hj]; rfl
    have hgoto : (goto f.loopLabel).labelName? = none := rfl
    simp only [filterMap_append, filterMap_cons, hmoves, ih, hcall, hret, hgoto, nil_append]

/-- A label is found in the converted code where the code behind it is converted. -/
theorem findIdx? {name k}
    (hk : code.findIdx? (·.operation.labels name) = some k) :
    ∃ k' table₁, code'.findIdx? (·.operation.labels name) = some k' ∧ table.length ≤ table₁.length ∧
      f.Converts (code.drop k) table₁ (code'.drop k') table' := by
  induction h generalizing k with
  | nil => cases hk
  | @plain i _ _ table _ notTail rest ih =>
    rw [findIdx?_cons] at hk ⊢
    split at hk
    · cases hk
      rename_i hlabel
      exact ⟨0, table, if_pos hlabel, Nat.le_refl _, .plain notTail rest⟩
    · rename_i hlabel
      obtain ⟨l, hl, rfl⟩ := Option.map_eq_some_iff.mp hk
      obtain ⟨k', table₁, hk', hle, hrest⟩ := ih hl
      rw [if_neg hlabel, hk']
      exact ⟨k' + 1, table₁, rfl, hle, hrest⟩
  | @tail i j _ _ table _ args call _ ih =>
    obtain ⟨_, _, hi, hj, -⟩ := of_tailCall? call
    rw [findIdx?_cons, findIdx?_cons, hi, hj] at hk
    simp only [labels, Bool.false_eq_true, ↓reduceIte, Option.map_map, Option.map_eq_some_iff,
      Function.comp_apply] at hk
    obtain ⟨l, hl, rfl⟩ := hk
    obtain ⟨k', table₁, hk', hle, hrest⟩ := ih hl
    have hmoves : (f.rebindParameters args table).1.findIdx? (·.operation.labels name) = none :=
      findIdx?_eq_none_iff.mpr fun i hi =>
        labels_of_not_isLabel (rebindParameters_isLabel hi) name
    refine ⟨(f.rebindParameters args table).1.length + (k' + 1), table₁, ?_,
      Nat.le_trans (f.prefix_rebindParameters args table).length_le hle, ?_⟩
    · rw [findIdx?_append, hmoves, findIdx?_cons, hk']
      simp [labels, Nat.add_comm]
    · rw [drop_length_add_append]
      exact hrest

end

end Converts

/-! ## Registers of the converted code -/

/-- A conversion adds registers only of the types of arguments. -/
theorem Converts.types {code code' table table'} (h : f.Converts code table code' table') {r} (hr : r ∈ table') :
    r ∈ table ∨ ∃ i ∈ code, ∃ a ∈ i.operation.mentions, r.type = a.type := by
  induction h with
  | nil => exact Or.inl hr
  | @plain i _ _ _ _ _ _ ih =>
    rcases ih hr with hr | ⟨j, hj, a, ha, htype⟩
    · exact Or.inl hr
    · exact Or.inr ⟨j, .tail _ hj, a, ha, htype⟩
  | @tail i j _ _ table _ args call _ ih =>
    rcases ih hr with hr | ⟨k, hk, a, ha, htype⟩
    · rcases (saveArguments_table _ args table).2.2 r hr with hr | ⟨a, ha, htype⟩
      · exact Or.inl hr
      · obtain ⟨_, _, hop, -⟩ := of_tailCall? call
        exact Or.inr ⟨i, .head _, a, by rw [hop]; exact mem_append_left _ ha, htype⟩
    · exact Or.inr ⟨k, .tail _ (.tail _ hk), a, ha, htype⟩

/-- The converted code has registers of the new table, which has those of the old. -/
theorem Converts.mentions (hparams : ∀ q ∈ f.parameters, q.register ∈ f.registers) {code code' table table'}
    (h : f.Converts code table code' table') (htable : ∀ r ∈ f.registers, r ∈ table)
    (hcode : ∀ i ∈ code, ∀ r ∈ i.operation.mentions, r ∈ f.registers) :
    (table.IsNumbered → table'.IsNumbered) ∧ (∀ r ∈ table, r ∈ table') ∧
      ∀ i ∈ code', ∀ r ∈ i.operation.mentions, r ∈ table' := by
  induction h with
  | nil => exact ⟨id, fun _ h => h, by simp⟩
  | @plain i _ _ _ _ _ _ ih =>
    obtain ⟨hnumbered, hsubset, hmentions⟩ := ih htable fun i hi => hcode i (.tail _ hi)
    refine ⟨hnumbered, hsubset, forall_mem_cons.mpr ⟨fun r hr => ?_, hmentions⟩⟩
    exact hsubset r (htable r (hcode i (.head _) r hr))
  | @tail i j _ _ table _ args call _ ih =>
    obtain ⟨_, _, hcall, -⟩ := of_tailCall? call
    have hargs : ∀ r ∈ args, r ∈ table := fun r hr =>
      htable r (hcode i (.head _) r (by rw [hcall]; exact mem_append_left _ hr))
    have hfront := (f.prefix_rebindParameters args table).subset
    obtain ⟨hnumbered, hsubset, hmentions⟩ := ih (fun r hr => hfront (htable r hr))
      fun i hi => hcode i (.tail _ (.tail _ hi))
    refine ⟨fun h => hnumbered ((saveArguments_table _ _ _).2.1 h), fun r hr => hsubset r (hfront hr),
      fun k hk r hr => ?_⟩
    rcases mem_append.mp hk with hk | hk
    · obtain ⟨s, t, hop, -, hmem, -⟩ := rebindParameters_moves hk
      obtain ⟨hs, ht⟩ := hmem (fun q hq => htable _ (hparams q hq)) hargs
      rw [hop] at hr
      simp only [Operation.mentions, Operation.reads, Operation.writes, List.cons_append, List.nil_append,
        mem_cons, not_mem_nil, or_false] at hr
      rcases hr with rfl | rfl
      · exact hsubset r hs
      · exact hsubset r ht
    · rcases mem_cons.mp hk with rfl | hk
      · cases hr
      · exact hmentions k hk r hr

/-- The converted code is as consistent as the code. -/
theorem Converts.consistent {p} (hf : f.Consistent p) (hfound : p.find? f.symbol = some f) {code code' table table'}
    (h : f.Converts code table code' table') (hcode : ∀ i ∈ code, i ∈ f.instructions) :
    ∀ i ∈ code', i.operation.Consistent p f.returnType := by
  intro k hk
  rcases h.mem hk with hk | ⟨c, hc, _, _, _, hcall, hk⟩ | hgoto
  · exact hf.operations k (hcode k hk)
  · obtain ⟨s, t, hop, -, -, htype⟩ := rebindParameters_moves hk
    have hconsistent := hf.operations c (hcode c hc)
    rw [hcall] at hconsistent
    obtain ⟨g, hg, htypes, -⟩ := hconsistent
    cases hfound.symm.trans hg
    rw [hop]
    exact htype htypes
  · rw [hgoto]
    trivial

/-- The procedure as a loop, whether or not it is marked as tail recursive. -/
def asLoop (f : Procedure) : Procedure := { f with isTailRecursive := true }.convertTailCalls

theorem withoutTailCalls_marked (f : Procedure) (label : String) (code : List Instruction) (table : RegisterTable) :
    { f with isTailRecursive := true }.withoutTailCalls label code table = f.withoutTailCalls label code table := by
  fun_induction withoutTailCalls f label code table with
  | case1 | case2 => rfl
  | case3 first second rest table args hcall moves table' hrebind rest' table'' hrest ih =>
    have hrebind' : { f with isTailRecursive := true }.rebindParameters args table = (moves, table') := hrebind
    simp only [withoutTailCalls, hcall, hrebind', ih, hrest]
  | case4 first second rest table hcall rest' table' hrest ih => simp only [withoutTailCalls, hcall, ih, hrest]

theorem asLoop_eq (f : Procedure) : f.asLoop = { f with
      isTailRecursive := true
      instructions := ⟨.label f.loopLabel, "Tail recursion re-enters here"⟩ ::
        (f.withoutTailCalls f.loopLabel f.instructions f.registers).1
      registers := (f.withoutTailCalls f.loopLabel f.instructions f.registers).2 } := by
  rw [← withoutTailCalls_marked]
  rfl

theorem convertTailCalls_cases (f : Procedure) : f.convertTailCalls = f ∨ f.convertTailCalls = f.asLoop := by
  cases h : f.isTailRecursive with
  | false => exact Or.inl (if_neg (by rw [h]; decide))
  | true =>
    rw [asLoop, ← h]
    exact Or.inr rfl

theorem mem_asLoop {i} (hi : i ∈ f.asLoop.instructions) :
    i ∈ f.instructions ∨ (∃ source target, i.operation = .move source target) ∨ i.operation = .goto f.loopLabel ∨
      i.operation = .label f.loopLabel := by
  rw [asLoop_eq] at hi
  rcases mem_cons.mp hi with rfl | hi
  · exact Or.inr (Or.inr (Or.inr rfl))
  · rcases (f.converts_withoutTailCalls f.instructions f.registers).mem hi with hi | ⟨_, -, _, _, _, -, hi⟩ | hgoto
    · exact Or.inl hi
    · obtain ⟨s, t, hop, -⟩ := rebindParameters_moves hi
      exact Or.inr (Or.inl ⟨s, t, hop⟩)
    · exact Or.inr (Or.inr (Or.inl hgoto))

/-- The label of the loop differs from those that were there. -/
theorem labels_asLoop (f : Procedure) (hf : (f.instructions.filterMap (·.operation.labelName?)).Nodup) :
    (f.asLoop.instructions.filterMap (·.operation.labelName?)).Nodup := by
  rw [asLoop_eq, show filterMap _ (_ :: _) = f.loopLabel :: _ from filterMap_cons,
    (f.converts_withoutTailCalls f.instructions f.registers).labels_eq]
  refine nodup_cons.mpr ⟨fun hmem => ?_, hf⟩
  obtain ⟨i, hi, hl⟩ := mem_filterMap.mp hmem
  have hfree := f.loopLabel_spec.2 i hi
  rw [labels_eq_true.mpr hl] at hfree
  cases hfree

theorem sameFace_asLoop (f : Procedure) : f.SameFace f.asLoop := ⟨rfl, rfl, rfl⟩

theorem Consistent.convertTailCalls {p} (hf : f.Consistent p) (hfound : p.find? f.symbol = some f) :
    f.convertTailCalls.Consistent p := by
  rcases f.convertTailCalls_cases with h | h <;> rw [h]
  · exact hf
  · have hconverts := f.converts_withoutTailCalls f.instructions f.registers
    obtain ⟨hnumbered, hsubset, hmentions⟩ := hconverts.mentions hf.parameters (fun _ h => h) hf.mentions
    have hnodup := f.labels_asLoop hf.labels
    rw [asLoop_eq] at hnodup ⊢
    refine ⟨hnumbered hf.numbered, fun r hr => ?_, fun q hq => hsubset _ (hf.parameters q hq), hf.distinct, ?_,
      hnodup, ?_⟩
    · rcases hconverts.types hr with hr | ⟨i, hi, a, ha, htype⟩
      · exact hf.widths r hr
      · rw [htype]
        exact hf.widths a (hf.mentions i hi a ha)
    · rw [forall_mem_cons]
      exact ⟨fun r hr => (by cases hr), hmentions⟩
    · rw [forall_mem_cons]
      exact ⟨f.loopLabel_ne_empty, hconverts.consistent hf hfound fun _ h => h⟩

end Procedure

end Retarget
