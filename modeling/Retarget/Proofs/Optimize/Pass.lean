import Mathlib.Logic.Relation
import Retarget.Proofs.Optimize.Window
import Retarget.Proofs.Run.Orderly

/-!
# Passes over programs

A pass replaces procedures by others of the same face: symbol, parameters and return type. Then whatever else
is type-consistent stays so, and runs are started alike. A pass is right if the new procedures are consistent
too and if runs are refined; passes that are right can be done one after another.
-/
namespace Retarget

open Activation List Procedure

/-- The procedures look the same to their callers. -/
structure Procedure.SameFace (f g : Procedure) : Prop where
  symbol : g.symbol = f.symbol
  parameters : g.parameters = f.parameters
  returnType : g.returnType = f.returnType

theorem Procedure.SameFace.refl (f : Procedure) : f.SameFace f := ⟨rfl, rfl, rfl⟩

theorem Procedure.SameFace.trans {f : Procedure} (hfg : f.SameFace g) (hgh : g.SameFace h) : f.SameFace h :=
  ⟨hgh.symbol.trans hfg.symbol, hgh.parameters.trans hfg.parameters, hgh.returnType.trans hfg.returnType⟩

/-! ## Data and faces are what types depend on -/

namespace Program

variable {p q : Program} {type : Ty}

theorem Corresponds.blockNames {R : Procedure → Procedure → Prop} (h : p.Corresponds R q) :
    q.blockNames = p.blockNames := by
  simp only [Program.blockNames, h.globals, h.literals]

theorem Corresponds.fits {R : Procedure → Procedure → Prop} (h : p.Corresponds R q) (hv : p.Fits type v) :
    q.Fits type v := by
  have hplaces : ∀ type block, q.Places type block ↔ p.Places type block := fun type block => by
    simp only [Places, h.globals, h.literals]
  unfold Fits at hv ⊢
  unfold CellFits at hv ⊢
  split at hv <;> simp_all

end Program

theorem Operation.Consistent.of_corresponds {p q} (h : p.Corresponds SameFace q) {type}
    {op : Operation} (ho : op.Consistent p type) : op.Consistent q type := by
  cases op with
  | loadImmediate => exact h.fits ho
  | call target =>
    cases target with
    | routine => trivial
    | function =>
      obtain ⟨f, hf, htypes, hcarried⟩ := ho
      obtain ⟨g, hg, hface⟩ := h.exists_find? (fun _ _ => SameFace.symbol) hf
      exact ⟨g, hg, by rw [hface.parameters]; exact htypes, by rw [hface.returnType]; exact hcarried⟩
  | addressOf symbol => cases symbol <;> simpa only [Operation.Consistent, h.globals, h.literals] using ho
  | _ => exact ho

theorem Procedure.Consistent.of_corresponds {p : Program} (h : p.Corresponds SameFace q)
    {f : Procedure} (hf : f.Consistent p) : f.Consistent q :=
  ⟨hf.numbered, hf.widths, hf.parameters, hf.distinct, hf.mentions, hf.labels,
    fun i hi => (hf.operations i hi).of_corresponds h⟩

theorem forall₂_of_mem {α β : Type} {R S : α → β → Prop} {as bs} (h : Forall₂ R as bs)
    (hRS : ∀ a ∈ as, ∀ b, R a b → S a b) : Forall₂ S as bs :=
  ((forall₂_and_left _ _).mpr ⟨fun _ ha => ha, h⟩).imp fun a b hab => hRS a hab.1 b hab.2

theorem forall₂_trans {α : Type} {R S T : α → α → Prop} (hR : ∀ a b c, R a b → S b c → T a c) {as bs cs}
    (hab : Forall₂ R as bs) (hbc : Forall₂ S bs cs) : Forall₂ T as cs := by
  induction hab generalizing cs with
  | nil =>
    cases hbc
    exact .nil
  | cons hab _ ih =>
    cases hbc with
    | cons hbc hrest => exact .cons (hR _ _ _ hab hbc) (ih hrest)

theorem forall₂_comp {α : Type} {R S : α → α → Prop} {as cs} (h : Forall₂ (fun a c => ∃ b, R a b ∧ S b c) as cs) :
    ∃ bs, Forall₂ R as bs ∧ Forall₂ S bs cs := by
  induction h with
  | nil => exact ⟨[], .nil, .nil⟩
  | cons hac _ ih =>
    obtain ⟨b, hab, hbc⟩ := hac
    obtain ⟨bs, hR, hS⟩ := ih
    exact ⟨b :: bs, .cons hab hR, .cons hbc hS⟩

/-- A program stays consistent when each procedure gives way to a consistent one of the same face. -/
theorem Program.Consistent.of_corresponds {p q} {R : Procedure → Procedure → Prop} (hp : p.Consistent)
    (h : p.Corresponds R q) (hface : ∀ f g, R f g → f.SameFace g)
    (hR : ∀ f ∈ p.procedures, ∀ g, R f g → g.Consistent p) :
    q.Consistent where
  procedures g hg := by
    obtain ⟨f, hf, hfg⟩ := exists_origin h.procedures hg
    exact (hR f hf g hfg).of_corresponds (h.mono hface)
  globals g hg := by
    rw [h.globals] at hg
    obtain ⟨htype, hvalues⟩ := hp.globals g hg
    exact ⟨htype, fun initializer hi x hx => h.fits (hvalues initializer hi x hx)⟩

/-! ## Other flags -/

/-- The procedures have the same instructions and look the same to their callers. -/
structure Procedure.SameCode (f g : Procedure) : Prop where
  face : f.SameFace g
  registers : g.registers = f.registers
  instructions : g.instructions = f.instructions

namespace Procedure.SameCode

variable {f g : Procedure}

theorem consistent (h : f.SameCode g) (hf : f.Consistent p) : g.Consistent p where
  numbered := h.registers ▸ hf.numbered
  widths := h.registers ▸ hf.widths
  parameters := by
    rw [h.face.parameters, h.registers]
    exact hf.parameters
  distinct := by
    rw [parameterIds, h.face.parameters]
    exact hf.distinct
  mentions := by
    rw [h.instructions, h.registers]
    exact hf.mentions
  labels := by
    rw [h.instructions]
    exact hf.labels
  operations := by
    rw [h.instructions, h.face.returnType]
    exact hf.operations

/-- Instructions do the same in both procedures. -/
theorem mirrors (h : f.SameCode g) {a} (ha : a.procedure = f) {rank : Activation → Nat} :
    Mirrors (fun _ a b => a.procedure = f ∧ b = { a with procedure := g }) rank memory a
      { a with procedure := g } := by
  subst ha
  generalize hb : ({ a with procedure := g } : Activation) = b
  have hnext : b.next? = a.next? := by
    simp only [← hb, Activation.next?, h.instructions]
  have hget : b.get = a.get := by
    funext r
    simp only [← hb, Activation.get, h.face.symbol]
  have hgoes : ∀ {target position}, a.procedure.GoesTo (a.position + 1) target position →
      b.procedure.GoesTo (b.position + 1) target position := by
    intro target _ hgo
    subst hb
    cases target with
    | none => exact hgo
    | some =>
      simp only [GoesTo, labelPlace?, h.instructions]
      exact hgo
  cases hn : a.next? with
  | none =>
    refine .of_past hn (hnext.trans hn) ?_
    rw [← hb]
    exact h.face.symbol
  | some =>
    refine .of_reflects hn (hnext.trans hn) ?_ (fun {e position} _ hgo => ⟨position, hgoes hgo, ?_⟩)
      fun {_ _ destination} _ _ value => ?_
    · rw [hget]
      exact Operation.reflects_refl _
    · subst hb
      exact ⟨written_procedure _ _, by rcases e.write with _ | ⟨r, _ | v⟩ <;> rfl⟩
    · subst hb
      refine ⟨written_procedure _ _, ?_⟩
      cases destination <;> cases value <;> rfl

theorem simulated (h : f.SameCode g) {Good : Activation → Prop} {rank : Activation → Nat} : f.Simulated Good rank g :=
  ⟨fun _ a b => a.procedure = f ∧ b = { a with procedure := g }, {
    symbol := by
      rintro _ _ ⟨rfl, rfl⟩
      exact h.face.symbol
    parameters := by
      rintro _ _ ⟨rfl, rfl⟩
      exact h.face.parameters
    start := by
      rintro _ _ ⟨rfl, rfl⟩ _ _
      refine ⟨rfl, ?_⟩
      simp only [activation, parameterIds, h.face.parameters]
    mirrors := by
      rintro _ a _ _ ⟨ha, rfl⟩
      exact h.mirrors ha }⟩

end Procedure.SameCode

/-! ## Right passes -/

namespace Program

variable {p q r : Program} {R : Procedure → Procedure → Prop}

/-- A right pass leads from the first program to the second. -/
structure Preserves (p q : Program) : Prop where
  corresponds : p.Corresponds Procedure.SameFace q
  consistent : q.Consistent
  refines : ∀ {symbol arguments}, p.blockNames.Nodup → p.AcceptsCall symbol arguments →
    p.Refines q symbol arguments

theorem AcceptsCall.of_corresponds (h : p.Corresponds SameFace q) {symbol arguments}
    (ha : p.AcceptsCall symbol arguments) : q.AcceptsCall symbol arguments := by
  intro g hg parameter v hv
  rcases h.find?_cases (fun _ _ => SameFace.symbol) symbol with ⟨-, hnone⟩ | ⟨f, _, hf, hg', hface⟩
  · rw [hg] at hnone
    cases hnone
  · rw [hg] at hg'
    cases hg'
    rw [hface.parameters] at hv
    exact h.fits (ha f hf parameter v hv)

theorem Preserves.trans (hpq : p.Preserves q) (hqr : q.Preserves r) : p.Preserves r where
  corresponds := ⟨hqr.corresponds.globals.trans hpq.corresponds.globals,
    hqr.corresponds.literals.trans hpq.corresponds.literals,
    forall₂_trans (fun _ _ _ h h' => h.trans h') hpq.corresponds.procedures hqr.corresponds.procedures⟩
  consistent := hqr.consistent
  refines hn ha := (hpq.refines hn ha).trans
    (hqr.refines (hpq.corresponds.blockNames ▸ hn) (ha.of_corresponds hpq.corresponds))

/-- Procedures that give way to consistent ones that run alike make a right pass. -/
theorem Preserves.of_simulated (hp : p.Consistent) (h : p.Corresponds R q)
    (hface : ∀ f g, R f g → f.SameFace g) (hR : ∀ f g, R f g → f.Consistent p → g.Consistent p)
    (hsimulated : ∀ f g, R f g → f.Consistent p → f.Simulated Orderly remaining g) :
    p.Preserves q where
  corresponds := h.mono hface
  consistent := hp.of_corresponds h hface fun f hf g hfg => hR f g hfg (hp.procedures f hf)
  refines {symbol args} hn ha := by
    have hsim : p.Corresponds (Simulated Orderly remaining) q :=
      ⟨h.globals, h.literals, forall₂_of_mem h.procedures fun f hf g hfg => hsimulated f g hfg (hp.procedures f hf)⟩
    refine Simulated.simulation.refines hsim fun {f k n} hf _ hs => ?_
    have hmem := mem_of_find?_eq_some hf
    exact ⟨Machine.orderly_of_steps hp hn hmem (ha f hf) hs,
      (Machine.sound_of_steps hp.typed hn hmem (ha f hf) hs).isAnswered hp.typed⟩

/-- Chains of steps of single procedures, side by side, are a chain of steps of programs. -/
theorem reflTransGen_forall₂ {S : Procedure → Procedure → Prop} (h : Forall₂ (Relation.ReflTransGen S) fs gs) :
    Relation.ReflTransGen (Forall₂ fun f g => g = f ∨ S f g) fs gs := by
  induction h with
  | nil => exact .refl
  | @cons f g fs gs hfg _ ih =>
    have hhead : Relation.ReflTransGen (Forall₂ fun f g => g = f ∨ S f g) (f :: fs) (g :: fs) :=
      hfg.lift (· :: fs) fun _ _ h => .cons (Or.inr h) (forall₂_same.mpr fun _ _ => Or.inl rfl)
    exact hhead.trans (ih.lift (g :: ·) fun _ _ h => .cons (Or.inl rfl) h)

/-- A pass that takes steps in every procedure is right if the single steps are. -/
theorem Preserves.of_chain {S : Procedure → Procedure → Prop} (hp : p.Consistent)
    (h : p.Corresponds (Relation.ReflTransGen S) q) (hface : ∀ f g, S f g → f.SameFace g)
    (hS : ∀ p f g, S f g → f.Consistent p → g.Consistent p) (hsimulated : ∀ p f g, S f g → f.Consistent p →
      f.Simulated Orderly remaining g) : p.Preserves q := by
  have hstep : ∀ {p q : Program}, p.Consistent → p.Corresponds (fun f g => g = f ∨ S f g) q →
      p.Preserves q := by
    intro p q hp h
    refine .of_simulated hp h ?_ ?_ ?_
    · rintro f g (rfl | h)
      · exact .refl _
      · exact hface f g h
    · rintro f g (rfl | h) hf
      · exact hf
      · exact hS p f g h hf
    · rintro f g (rfl | h) hf
      · exact .refl _
      · exact hsimulated p f g h hf
  have hchain : ∀ {gs}, Relation.ReflTransGen (Forall₂ fun f g => g = f ∨ S f g) p.procedures gs →
      p.Preserves { q with procedures := gs } := by
    intro _ hgs
    induction hgs with
    | refl => exact hstep hp ⟨h.globals, h.literals, forall₂_same.mpr fun _ _ => Or.inl rfl⟩
    | tail _ hlast ih => exact ih.trans (hstep ih.consistent ⟨rfl, rfl, hlast⟩)
  exact hchain (reflTransGen_forall₂ h.procedures)

end Program

end Retarget
