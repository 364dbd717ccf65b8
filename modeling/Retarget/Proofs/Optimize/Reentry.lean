import Retarget.Proofs.Optimize.Pipeline
import Retarget.Proofs.Run.Stack

/-!
# Procedures that are never entered again

The self-modifying convention patches arguments into the code of a procedure, so such a procedure must not be
entered again before it returns. The optimiser gives the convention only where a search finds no cycle of
calls. It takes calls out but puts none in, so names that tell functions apart before still do, and the
search, done on the program before conventions are chosen, is right for the program that is run
(`optimize_smc_not_reentered`).
-/
namespace Retarget

open Checked List Operation Peephole

/-! ## What the patterns bring in -/

namespace Operation

theorem calls_iff {operation : Operation} :
    operation.calls s = true ↔ ∃ arguments destination, operation = .call (.function s) arguments destination := by
  constructor
  · intro h
    unfold calls at h
    split at h
    · rename_i callee arguments destination
      exact ⟨arguments, destination, by rw [of_decide_eq_true h]⟩
    · cases h
  · rintro ⟨_, _, rfl⟩
    exact decide_eq_true rfl

@[simp] theorem calls_mapWrites (φ : Register → Register) (op : Operation) (s : Symbol) :
    (op.mapWrites φ).calls s = op.calls s := by
  cases op with
  | call target => cases target <;> rfl
  | _ => rfl

@[simp] theorem calls_mapReads (φ : Register → Register) (op : Operation) (s : Symbol) :
    (op.mapReads φ).calls s = op.calls s := by
  cases op with
  | call target => cases target <;> rfl
  | _ => rfl

theorem mem_mentions_mapWrites {op : Operation}
    (h : r ∈ (op.mapWrites fun _ => target).mentions) : r = target ∨ r ∈ op.mentions := by
  cases op with
  | call _ _ dest => cases dest <;> grind [mentions, mapWrites, reads, writes]
  | _ => grind [mentions, mapWrites, reads, writes]

theorem mem_mentions_mapReads {op : Operation} {φ : Register → Register}
    (h : r ∈ (op.mapReads φ).mentions) : r ∈ op.mentions ∨ ∃ s ∈ op.mentions, r = φ s := by
  cases op with
  | ret reg => cases reg <;> grind [mentions, mapReads, reads, writes]
  | _ => grind [mentions, mapReads, reads, writes]

end Operation

/-- Every call in some code, and every register that it mentions, is one of other code. -/
structure Within (code code' : List Instruction) : Prop where
  calls : ∀ i ∈ code', ∀ s, i.operation.calls s = true → ∃ j ∈ code, j.operation.calls s = true
  mentions : ∀ i ∈ code', ∀ r ∈ i.operation.mentions, ∃ j ∈ code, r ∈ j.operation.mentions

namespace Within

variable {code code' code'' : List Instruction}

theorem of_subset (h : ∀ i ∈ code', i ∈ code) : Within code code' :=
  ⟨fun i hi _ hs => ⟨i, h i hi, hs⟩, fun i hi _ hr => ⟨i, h i hi, hr⟩⟩

theorem trans (h : Within code code') (h' : Within code' code'') : Within code code'' := by
  refine ⟨fun i hi s hs => ?_, fun i hi r hr => ?_⟩
  · obtain ⟨j, hj, hs⟩ := h'.calls i hi s hs
    exact h.calls j hj s hs
  · obtain ⟨j, hj, hr⟩ := h'.mentions i hi r hr
    exact h.mentions j hj r hr

theorem singleton {z} (hcalls : ∀ s, z.operation.calls s = true → ∃ j ∈ code, j.operation.calls s = true)
    (hmentions : ∀ r ∈ z.operation.mentions, ∃ j ∈ code, r ∈ j.operation.mentions) : Within code [z] := by
  refine ⟨fun i hi => ?_, fun i hi => ?_⟩ <;> rw [mem_singleton.mp hi]
  · exact hcalls
  · exact hmentions

theorem window (pre post : List Instruction) (h : Within code code') :
    Within (pre ++ code ++ post) (pre ++ code' ++ post) := by
  have hmem : ∀ {i : Instruction} {l : List Instruction}, i ∈ pre ++ l ++ post ↔ (i ∈ pre ∨ i ∈ post) ∨ i ∈ l := by
    intro i l
    simp only [mem_append]
    tauto
  refine ⟨fun i hi s hs => ?_, fun i hi r hr => ?_⟩
  · rcases hmem.mp hi with hi | hi
    · exact ⟨i, hmem.mpr (Or.inl hi), hs⟩
    · obtain ⟨j, hj, hs⟩ := h.calls i hi s hs
      exact ⟨j, hmem.mpr (Or.inr hj), hs⟩
  · rcases hmem.mp hi with hi | hi
    · exact ⟨i, hmem.mpr (Or.inl hi), hr⟩
    · obtain ⟨j, hj, hr⟩ := h.mentions i hi r hr
      exact ⟨j, hmem.mpr (Or.inr hj), hr⟩

end Within

theorem within_of_replaceTwo? {pattern : Pattern}
    (h : pattern.replaceTwo? facts x y = some new) : Within [x, y] new := by
  unfold Pattern.replaceTwo? at h
  split at h
  · -- a move, and the move back
    split at h <;> cases h
    exact .of_subset (by simp)
  · -- a constant that is moved on
    split at h <;> cases h
    exact .singleton (by simp [calls]) (by simp [mentions, reads, writes])
  · -- a step, and the opposite step
    split at h <;> cases h
    exact .of_subset (by simp)
  · -- a comparison with zero
    dsimp only at h
    split at h
    · obtain ⟨_, -, hnew⟩ := Option.bind_eq_some_iff.mp h
      obtain ⟨_, -, rfl⟩ := Option.map_eq_some_iff.mp hnew
      refine .singleton (by simp [calls]) ?_
      split <;> simp [mentions, reads, writes]
    · cases h
  · -- a test whether a difference is zero
    split at h <;> cases h
    exact .singleton (by simp [calls]) (by simp [mentions, reads, writes])
  · -- a result that is moved on
    split at h
    · split at h <;> cases h
      refine .singleton (fun s hs => ⟨_, .head _, by simpa using hs⟩) fun r hr => ?_
      rcases mem_mentions_mapWrites hr with rfl | hr
      · exact ⟨_, .tail _ (.head _), by simp [mentions, reads, writes]⟩
      · exact ⟨_, .head _, hr⟩
    · cases h
  · cases h
  · -- a copy that the next instruction reads
    split at h <;> cases h
    refine .singleton (fun s hs => ⟨_, .tail _ (.head _), by simpa using hs⟩) fun r hr => ?_
    rcases mem_mentions_mapReads hr with hr | ⟨s, hs, hr⟩
    · exact ⟨_, .tail _ (.head _), hr⟩
    · split at hr <;> rw [hr]
      · exact ⟨_, .head _, by simp [mentions, reads, writes]⟩
      · exact ⟨_, .tail _ (.head _), hs⟩
  -- a jump to the label that follows, and code behind a jump or a return
  iterate 3
    · split at h <;> cases h
      exact .of_subset (by simp)
  · cases h

theorem within_of_step? (h : step? params code = some (pattern, code')) : Within code code' := by
  obtain ⟨pre, _, _, post, hold, rfl, hm⟩ := matches_of_simplifyFirst? h
  rw [hold]
  refine .window pre post ?_
  cases hm with
  | two replaced => exact within_of_replaceTwo? replaced
  | one replaced =>
    unfold Pattern.replaceOne? at replaced
    split at replaced
    · split at replaced <;> cases replaced
      exact .of_subset (by simp)
    · split at replaced <;> cases replaced
      exact .of_subset (by simp)
    · cases replaced

theorem within_simplify (params : List Numeral) (rounds : Nat) (code : List Instruction) :
    Within code (simplify params rounds code).2 := by
  induction rounds generalizing code with
  | zero => exact .of_subset fun _ h => h
  | succ _ ih =>
    unfold simplify
    split
    · exact .of_subset fun _ h => h
    · rename_i hstep
      exact (within_of_step? hstep).trans (ih _)

/-! ## What the passes bring in -/

namespace Procedure

variable {f g : Procedure}

/-- Registers hold nothing but scalars. -/
def AllScalar (f : Procedure) : Prop := ∀ r ∈ f.registers ++ f.mentioned, r.type.isScalar = true

instance (f : Procedure) : Decidable f.AllScalar := inferInstanceAs (Decidable (∀ _ ∈ _, _))

theorem callees_subset (h : Within f.instructions g.instructions) : ∀ s ∈ g.callees, s ∈ f.callees := by
  intro s hs
  obtain ⟨i, hi, hcall⟩ := mem_callees.mp hs
  obtain ⟨j, hj, hcalls⟩ := h.calls i hi s (calls_iff.mpr hcall)
  exact mem_callees.mpr ⟨j, hj, calls_iff.mp hcalls⟩

theorem AllScalar.within (hf : f.AllScalar) (h : Within f.instructions g.instructions)
    (hregs : g.registers = f.registers) : g.AllScalar := by
  intro r hr
  rcases mem_append.mp hr with hr | hr
  · exact hf r (mem_append_left _ (hregs ▸ hr))
  · obtain ⟨i, hi, hr⟩ := mem_flatMap.mp hr
    obtain ⟨j, hj, hr⟩ := h.mentions i hi r hr
    exact hf r (mem_append_right _ (mem_mentioned hj hr))

theorem PeepholeStage.within (h : f.PeepholeStage g) :
    Within f.instructions g.instructions ∧ g.registers = f.registers := by
  rcases h with rfl | h
  · exact ⟨.of_subset fun _ h => h, rfl⟩
  · rw [peephole_eq h]
    exact ⟨within_simplify _ _ _, rfl⟩

theorem callees_convertTailCalls (f : Procedure) : ∀ s ∈ f.convertTailCalls.callees, s ∈ f.callees := by
  intro s hs
  rcases f.convertTailCalls_cases with h | h <;> rw [h] at hs
  · exact hs
  · obtain ⟨i, hi, args, dest, hop⟩ := mem_callees.mp hs
    rcases mem_asLoop hi with hi | ⟨_, _, hi⟩ | hi | hi
    · exact mem_callees.mpr ⟨i, hi, args, dest, hop⟩
    · cases hop.symm.trans hi
    · cases hop.symm.trans hi
    · cases hop.symm.trans hi

theorem AllScalar.convertTailCalls (hf : f.AllScalar) : ∀ r ∈ f.convertTailCalls.registers, r.type.isScalar = true := by
  intro r hr
  rcases f.convertTailCalls_cases with h | h <;> rw [h] at hr
  · exact hf r (mem_append_left _ hr)
  · rw [asLoop_eq] at hr
    rcases (f.converts_withoutTailCalls f.instructions f.registers).types hr with hr | ⟨i, hi, a, ha, htype⟩
    · exact hf r (mem_append_left _ hr)
    · rw [htype]
      exact hf a (mem_append_right _ (mem_mentioned hi ha))

theorem SameCode.callees (h : f.SameCode g) : g.callees = f.callees := by
  unfold Procedure.callees
  rw [h.instructions]

theorem Optimizes.callees (h : f.Optimizes passes g) : ∀ s ∈ g.callees, s ∈ f.callees := by
  obtain ⟨_, h₁, f₂, h₂, _, h₃, _, h₄, h₅⟩ := h.cases
  intro s hs
  rw [h₅.callees] at hs
  have hs := callees_subset h₄.within.1 s hs
  have hs : s ∈ f₂.callees := by
    rcases h₃ with rfl | rfl
    · exact hs
    · exact callees_convertTailCalls f₂ s hs
  rw [h₂.callees] at hs
  exact callees_subset h₁.within.1 s hs

theorem Optimizes.registers (h : f.Optimizes passes g) (hf : f.AllScalar) :
    ∀ r ∈ g.registers, r.type.isScalar = true := by
  obtain ⟨_, h₁, f₂, h₂, _, h₃, _, h₄, h₅⟩ := h.cases
  have hf₁ := hf.within h₁.within.1 h₁.within.2
  have hf₂ : f₂.AllScalar := hf₁.within (h₂.instructions ▸ .of_subset fun _ h => h) h₂.registers
  intro r hr
  rw [h₅.registers, h₄.within.2] at hr
  rcases h₃ with rfl | rfl
  · exact hf₂ r (mem_append_left _ hr)
  · exact hf₂.convertTailCalls r hr

end Procedure

/-! ## Conventions -/

namespace Program

variable {p q : Program} {f g : Procedure}

/-- Searches go by the code alone. -/
theorem searchCycle_congr (h : p.Corresponds Procedure.SameCode q) (goal : Symbol) (depth : Nat) :
    ∀ {f g : Procedure}, f.SameCode g → ∀ path visited,
      q.searchCycle goal depth g path visited = p.searchCycle goal depth f path visited := by
  induction depth with
  | zero => exact fun _ _ _ => rfl
  | succ _ ih =>
    intro f g hfg _ visited
    unfold searchCycle
    rw [hfg.callees]
    generalize f.callees = callees
    induction callees generalizing visited with
    | nil => rfl
    | cons callee _ ihc =>
      unfold searchCallees
      refine bind_congr fun name => ?_
      rcases h.find?_cases (fun _ _ h => h.face.symbol) callee with ⟨hp, hq⟩ | ⟨_, _, hp, hq, hfg'⟩
      · simp only [hp, hq, ihc]
      · simp only [hp, hq, ihc, ih hfg']

theorem recursionCycle_congr (h : p.Corresponds Procedure.SameCode q) (hfg : f.SameCode g) :
    q.recursionCycle g = p.recursionCycle f := by
  unfold recursionCycle
  rw [hfg.face.symbol, ← h.procedures.length_eq]
  simp only [searchCycle_congr h _ _ hfg]

/-- Names that tell functions apart still do so after optimisation. -/
theorem TellsApart.optimizes (hp : p.TellsApart)
    (h : Forall₂ (Procedure.Optimizes passes) p.procedures q.procedures) : q.TellsApart := by
  have hsymbols : ∀ s ∈ q.symbols, s ∈ p.symbols := by
    intro s hs
    obtain ⟨g, hg, hs⟩ := mem_flatMap.mp hs
    obtain ⟨f, hf, hfg⟩ := exists_origin h hg
    rcases mem_cons.mp hs with rfl | hs
    · rw [hfg.symbol]
      exact symbol_mem_symbols hf
    · exact callee_mem_symbols hf (hfg.callees s hs)
  refine ⟨fun s hs t ht => hp.texts s (hsymbols s hs) t (hsymbols t ht), ?_⟩
  have hmap : q.procedures.map (·.symbol) = p.procedures.map (·.symbol) := by
    generalize p.procedures = fs, q.procedures = gs at h
    induction h with
    | nil => rfl
    | cons hfg _ ih => rw [map_cons, map_cons, ih, hfg.symbol]
  rw [hmap]
  exact hp.procedures

/-- A procedure that gets the self-modifying convention has no cycle, and the target allows it. -/
theorem smc_of_chooseConvention (hf : f.convention = .standard)
    (h : p.chooseConvention policy allowsSmc f = .ok (.ok g)) (hg : g.convention = .smc) :
    allowsSmc = true ∧ p.recursionCycle f = .ok none := by
  unfold chooseConvention at h
  split at h
  · rename_i hallows
    rw [Bool.and_eq_true] at hallows
    obtain ⟨cycle, hcycle, h⟩ := bind_eq_ok.mp h
    cases cycle with
    | none => exact ⟨hallows.1, hcycle⟩
    | some =>
      obtain ⟨_, -, h⟩ := bind_eq_ok.mp h
      cases h
  · cases h
    rw [hf] at hg
    cases hg

end Program

theorem Procedure.PeepholeStage.convention {f : Procedure} (h : f.PeepholeStage g) : g.convention = f.convention := by
  rcases h with rfl | h
  · rfl
  · rw [peephole_eq h]

theorem Procedure.convention_of_optimize {f : Procedure} (h : f.optimize passes = .ok g) :
    g.convention = f.convention := by
  rw [optimize_eq] at h
  obtain ⟨_, hf₁, h⟩ := bind_eq_ok.mp h
  rw [← (peepholeStage_of_simplified hf₁).convention]
  split at h
  · rw [(peepholeStage_of_simplified h).convention, asLoop_eq]
  · cases h
    rfl

/-! ## Capabilities -/

theorem Ty.features_of_isScalar {type : Ty} (h : type.isScalar = true) :
    ∃ features, type.features = .ok features ∧ Feature.smc ∉ features := by
  cases type with
  | integer | fixed => exact ⟨_, rfl, by split <;> simp⟩
  | boolean | pointer => exact ⟨_, rfl, by simp⟩
  | _ => cases h

theorem Procedure.requiredFeatures_eq_ok {f : Procedure} (hf : ∀ r ∈ f.registers, r.type.isScalar = true) :
    ∃ features, f.requiredFeatures = .ok features ∧ (Feature.smc ∈ features → f.convention = .smc) := by
  have hmap : ∀ rs : List Register, (∀ r ∈ rs, r.type.isScalar = true) →
      ∃ needed, rs.mapM (fun r => r.type.features) = .ok needed ∧ Feature.smc ∉ needed.flatten := by
    intro rs hrs
    induction rs with
    | nil => exact ⟨[], rfl, by simp⟩
    | cons r rs ih =>
      obtain ⟨features, hfeatures, hsmc⟩ := Ty.features_of_isScalar (hrs r (.head _))
      obtain ⟨needed, hneeded, hsmc'⟩ := ih fun r hr => hrs r (.tail _ hr)
      refine ⟨features :: needed, ?_, ?_⟩
      · rw [mapM_cons, hfeatures, hneeded]
        rfl
      · rw [flatten_cons, mem_append]
        exact fun h => h.elim hsmc hsmc'
  obtain ⟨_, hneeded, hsmc⟩ := hmap f.registers hf
  refine ⟨_, by unfold requiredFeatures; rw [hneeded]; rfl, fun h => ?_⟩
  have hmem := (mem_filter.mp h).2
  rw [contains_iff_mem, mem_append] at hmem
  rcases hmem with hmem | hmem
  · split at hmem
    · assumption
    · cases hmem
  · exact absurd hmem hsmc

/-- Every target has every feature, but for the self-modifying convention. -/
theorem Target.mem_features (target : Target) (h : feature = .smc → target.supportsSmc = true) :
    feature ∈ target.descriptor.features := by
  cases feature with
  | smc =>
    have hsmc := h rfl
    cases target with
    | z80 => decide
    | _ => cases hsmc
  | _ => cases target <;> decide

namespace Program

variable {p q : Program}

theorem procedureConflicts_eq_nil {target : Target} {f} (hname : f.symbol.text = .ok name)
    (hscalar : ∀ r ∈ f.registers, r.type.isScalar = true)
    (hsmc : f.convention = .smc → target.supportsSmc = true ∧ p.recursionCycle f = .ok none) :
    p.procedureConflicts target f = .ok [] := by
  obtain ⟨features, hfeatures, hneeds⟩ := Procedure.requiredFeatures_eq_ok hscalar
  have hmissing : features.filter (fun feature => !target.descriptor.features.contains feature) = [] := by
    refine filter_eq_nil_iff.mpr fun feature hfeature => ?_
    have hmem := target.mem_features fun (h : feature = .smc) => (hsmc (hneeds (h ▸ hfeature))).1
    simp [hmem]
  unfold procedureConflicts
  rw [hname, hfeatures]
  show (if (decide (f.convention = .smc) && target.supportsSmc) = true then _ else _ : Checked _) = _
  rw [hmissing]
  split
  · rename_i hconvention
    rw [Bool.and_eq_true, decide_eq_true_eq] at hconvention
    rw [(hsmc hconvention.1).2]
    rfl
  · rfl

/-- A program that the optimiser returns fits its target, and no run of it has two activations at once of a
procedure with the self-modifying convention. -/
theorem optimize_smc_not_reentered {passes : Passes} {policy : SmcPolicy} (target : Target)
    (hstandard : ∀ f ∈ p.procedures, f.convention = .standard) (hp : p.TellsApart)
    (h : p.optimize passes policy target.supportsSmc = .ok (.ok q)) :
    ((∀ f ∈ p.procedures, f.AllScalar ∧ ∃ name, f.symbol.text = .ok name) → q.checkCapabilities target = .ok []) ∧
    ∀ symbol arguments limit, ∀ m ∈ q.machines symbol arguments limit, ∀ f ∈ q.procedures, f.convention = .smc →
      m.stack.countP (·.symbol = f.symbol) ≤ 1 := by
  obtain ⟨hglobals, hliterals, fs, hfs, hchosen⟩ := optimize_cases h
  have hoptimizes : List.Forall₂ (Procedure.Optimizes passes) p.procedures q.procedures :=
    forall₂_trans (fun _ f' _ hf' hg => ⟨f', hf', sameCode_of_chooseConvention hg⟩) hfs hchosen
  have hq := hp.optimizes hoptimizes
  have hsame : Corresponds Procedure.SameCode { p with procedures := fs } q :=
    ⟨hglobals, hliterals, hchosen.imp fun _ _ => sameCode_of_chooseConvention⟩
  -- conventions were chosen by a search in the program before, which is the same as one in this program
  have hsmc : ∀ g ∈ q.procedures, g.convention = .smc →
      target.supportsSmc = true ∧ q.recursionCycle g = .ok none := by
    intro g hg hconvention
    obtain ⟨f, hf, hfg⟩ := exists_origin hchosen hg
    obtain ⟨f₀, hf₀, hf₀f⟩ := exists_origin hfs hf
    have hstandard := (Procedure.convention_of_optimize hf₀f).trans (hstandard f₀ hf₀)
    obtain ⟨hallows, hcycle⟩ := smc_of_chooseConvention hstandard hfg hconvention
    exact ⟨hallows, (recursionCycle_congr hsame (sameCode_of_chooseConvention hfg)).trans hcycle⟩
  refine ⟨fun hscalar => ?_, fun symbol arguments limit m hm f hf hconvention => ?_⟩
  · have hnone : ∀ g ∈ q.procedures, q.procedureConflicts target g = .ok [] := by
      intro g hg
      obtain ⟨f, hf, hfg⟩ := exists_origin hoptimizes hg
      obtain ⟨hscalar, _, hname⟩ := hscalar f hf
      exact procedureConflicts_eq_nil (hfg.symbol ▸ hname) (hfg.registers hscalar) (hsmc g hg)
    unfold checkCapabilities
    rw [mapM_eq_ok hnone]
    show Except.ok (q.procedures.map fun _ => []).flatten = _
    rw [flatten_eq_nil_iff.mpr fun l hl => ?_]
    obtain ⟨g, -, rfl⟩ := mem_map.mp hl
    rfl
  · exact (stacks_of_mem_machines hm).count_le_one hq hf (not_calls_of_recursionCycle hq hf (hsmc f hf hconvention).2)

/-- The procedure that calls itself last is given the self-modifying convention, once its call is a jump. -/
theorem sum_smc_not_reentered :
    Program.optimize ⟨"M", [sum], [], []⟩ ⟨true, true⟩ .all Target.z80.supportsSmc =
        .ok (.ok ⟨"M", [{ sumAsLoop with convention := .smc }], [], []⟩) ∧
      checkCapabilities ⟨"M", [{ sumAsLoop with convention := .smc }], [], []⟩ .z80 = .ok [] := by
  have h : optimize ⟨"M", [sum], [], []⟩ ⟨true, true⟩ .all Target.z80.supportsSmc =
      .ok (.ok ⟨"M", [{ sumAsLoop with convention := .smc }], [], []⟩) := by decide +kernel
  have hsymbols : ∀ s ∈ symbols ⟨"M", [sum], [], []⟩, s = sum.symbol := by decide
  have hp : TellsApart ⟨"M", [sum], [], []⟩ := by
    refine ⟨fun s hs t ht _ _ _ => (hsymbols s hs).trans (hsymbols t ht).symm, by decide⟩
  refine ⟨h, (optimize_smc_not_reentered .z80 (by decide) hp h).1 fun f hf => ?_⟩
  rw [mem_singleton.mp hf]
  exact ⟨by decide, "M_sum", rfl⟩

end Program

end Retarget
