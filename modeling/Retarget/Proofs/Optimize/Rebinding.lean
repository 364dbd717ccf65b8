import Retarget.Optimize.TailCall
import Retarget.Proofs.Optimize.Pass

/-!
# Giving parameters new values

A call of the procedure itself gives all parameters their new values at once. Moves give them one after
another, so a parameter that is still to be read is saved first, in a register of its own
(`rebindParameters_simultaneous`).
-/
namespace Retarget

open List Machine RegisterTable

/-! ## Straight code -/

namespace Activation

def rest (a : Activation) : List Instruction := a.procedure.instructions.drop a.position

theorem next?_of_rest {a : Activation} (h : a.rest = i :: code) : a.next? = some i := by
  rw [next?, ← head?_drop, show a.procedure.instructions.drop a.position = _ from h]
  rfl

theorem rest_of_next {a : Activation} (h : a.rest = i :: code) :
    a.procedure.instructions.drop (a.position + 1) = code := by
  rw [← tail_drop, show a.procedure.instructions.drop a.position = _ from h]
  rfl

theorem next?_of_rest_nil {a : Activation} (h : a.rest = []) : a.next? = none := by
  rw [next?, ← head?_drop, show a.procedure.instructions.drop a.position = _ from h]
  rfl

/-- Steps that change nothing but the activation. -/
inductive Runs (memory : Memory) : Nat → Activation → Activation → Prop
  | refl (a : Activation) : Runs memory 0 a a
  | head {k : Nat} {a b c : Activation} (first : a.react memory = .goesOn b memory [])
      (rest : Runs memory k b c) : Runs memory (k + 1) a c

theorem Runs.trans (first : Runs memory k a b) (second : Runs memory l b c) : Runs memory (k + l) a c := by
  induction first with
  | refl => rwa [Nat.zero_add]
  | head h _ ih =>
    rw [Nat.add_right_comm]
    exact .head h (ih second)

/-- Such steps of an activation are steps of the machine that it is active in. -/
theorem Runs.steps (h : Runs memory k a b) (w : World) (hw : w.memory = memory)
    (callers : List Suspended) : ∃ cycles, Steps p k ⟨w, a, callers⟩ ⟨{ w with cycles }, b, callers⟩ := by
  induction h generalizing w with
  | refl => exact ⟨w.cycles, .refl _⟩
  | head first _ ih =>
    subst hw
    have hreaction : reaction ⟨w, _, callers⟩ = .goesOn _ w.memory [] := first
    obtain ⟨cycles, hs⟩ := ih (w.after w.memory []) rfl
    exact ⟨cycles, .head (advance_of_goesOn hreaction) hs⟩

/-- A move copies what its source holds and changes nothing else. -/
theorem react_of_move {a : Activation} (memory : Memory)
    (hrest : a.rest = ⟨.move source target, why⟩ :: code) (hv : a.registers.get? source.id = some v) :
    ∃ b, a.react memory = .goesOn b memory [] ∧ b.procedure = a.procedure ∧ b.rest = code ∧
      ∀ id, b.registers.get? id = if target.id = id then some v else a.registers.get? id := by
  have hgo : a.procedure.GoesTo (a.position + 1) (Effect.assign memory target v).target (a.position + 1) := rfl
  refine ⟨_, react_of_does (next?_of_rest hrest) (.move (get_eq_ok.mpr hv)) hgo, written_procedure _ _, ?_,
    get?_written a target (some v)⟩
  rw [rest, written_procedure]
  exact rest_of_next hrest

end Activation

/-! ## Saved arguments -/

/-- The id is not one that the table has still to hand out. -/
def RegisterTable.Settled (table : RegisterTable) (id : Numeral) : Prop :=
  ∀ k, table.length ≤ k → id ≠ .natural (k + 1)

theorem RegisterTable.Settled.mono {table table' : RegisterTable} {id} (h : table.Settled id)
    (hle : table.length ≤ table'.length) : table'.Settled id :=
  fun k hk => h k (Nat.le_trans hle hk)

theorem RegisterTable.settled_fresh (table : RegisterTable) (type : Ty) :
    Settled (table ++ [table.fresh type]) (table.fresh type).id := by
  intro k hk h
  rw [length_append, length_singleton] at hk
  injection h with h
  omega

theorem RegisterTable.IsNumbered.settled {table : RegisterTable} (h : table.IsNumbered) (hr : r ∈ table) :
    table.Settled r.id := by
  intro k hk hid
  obtain ⟨i, hi⟩ := getElem?_of_mem hr
  rw [h i r hi] at hid
  injection hid with hid
  have hlt := (List.getElem?_eq_some_iff.mp hi).1
  omega

namespace Procedure

/-- An argument that needs saving is found in a new register of its type, any other where it was. -/
theorem saveArguments_sources (needsSave : Register → Bool) (args : List Register) (table : RegisterTable) :
    Forall₂ (fun r s => s.type = r.type ∧
        (needsSave r = true ∧ ¬table.Settled s.id ∨ needsSave r = false ∧ s = r))
      args (saveArguments needsSave args table).2.1 := by
  induction args generalizing table with
  | nil => exact .nil
  | cons arg _ ih =>
    rw [saveArguments]
    split
    · rename_i hsave
      refine .cons ⟨rfl, Or.inl ⟨hsave, fun h => h table.length (Nat.le_refl _) rfl⟩⟩ ?_
      refine (ih _).imp fun r s ⟨htype, hs⟩ => ⟨htype, ?_⟩
      rcases hs with ⟨hr, hs⟩ | hs
      · exact Or.inl ⟨hr, fun h => hs (h.mono (by simp [allocate]))⟩
      · exact Or.inr hs
    · rename_i hsave
      exact .cons ⟨rfl, Or.inr ⟨Bool.eq_false_iff.mpr hsave, rfl⟩⟩ (ih table)

/-- What saving does to the table: it adds registers of the arguments' types. -/
theorem saveArguments_table (needsSave : Register → Bool) (args : List Register) (table : RegisterTable) :
    table <+: (saveArguments needsSave args table).2.2 ∧
      (table.IsNumbered → IsNumbered (saveArguments needsSave args table).2.2) ∧
      ∀ r ∈ (saveArguments needsSave args table).2.2, r ∈ table ∨ ∃ a ∈ args, r.type = a.type := by
  induction args generalizing table with
  | nil => exact ⟨prefix_refl _, id, fun r hr => Or.inl hr⟩
  | cons arg _ ih =>
    rw [saveArguments]
    split
    · obtain ⟨hfront, hnumbered, htypes⟩ := ih (table.allocate arg.type).2
      refine ⟨(prefix_append _ _).trans hfront, fun h => hnumbered (h.append_fresh _), fun r hr => ?_⟩
      rcases htypes r hr with hr | ⟨a, ha, htype⟩
      · rcases mem_append.mp hr with hr | hr
        · exact Or.inl hr
        · obtain rfl := mem_singleton.mp hr
          exact Or.inr ⟨arg, .head _, rfl⟩
      · exact Or.inr ⟨a, .tail _ ha, htype⟩
    · obtain ⟨hfront, hnumbered, htypes⟩ := ih table
      refine ⟨hfront, hnumbered, fun r hr => (htypes r hr).imp_right ?_⟩
      rintro ⟨a, ha, htype⟩
      exact ⟨a, .tail _ ha, htype⟩

/-- Saves are moves of arguments to new registers of their types, which the table gets. -/
theorem saveArguments_moves (needsSave : Register → Bool) (args : List Register) (table : RegisterTable) :
    (∀ i ∈ (saveArguments needsSave args table).1, ∃ r ∈ args, ∃ s ∈ (saveArguments needsSave args table).2.2,
      i.operation = .move r s ∧ r.type = s.type ∧ ¬table.Settled s.id) ∧
    ∀ s ∈ (saveArguments needsSave args table).2.1,
      s ∈ args ∨ s ∈ (saveArguments needsSave args table).2.2 := by
  induction args generalizing table with
  | nil => exact ⟨fun i hi => (by cases hi), fun s hs => (by cases hs)⟩
  | cons arg rest ih =>
    rw [saveArguments]
    split
    · obtain ⟨hmoves, hsources⟩ := ih (table.allocate arg.type).2
      have hsaved : (table.allocate arg.type).1 ∈
          (saveArguments needsSave rest (table.allocate arg.type).2).2.2 :=
        (saveArguments_table _ _ _).1.subset (mem_append_right _ (.head _))
      refine ⟨fun i hi => ?_, fun s hs => ?_⟩
      · rcases mem_cons.mp hi with rfl | hi
        · exact ⟨arg, .head _, _, hsaved, rfl, rfl, fun h => h table.length (Nat.le_refl _) rfl⟩
        · obtain ⟨r, hr, s, hs, hop, htype, hfresh⟩ := hmoves i hi
          exact ⟨r, .tail _ hr, s, hs, hop, htype, fun h => hfresh (h.mono (by simp [allocate]))⟩
      · rcases mem_cons.mp hs with rfl | hs
        · exact Or.inr hsaved
        · exact (hsources s hs).imp_left (.tail _)
    · obtain ⟨hmoves, hsources⟩ := ih table
      refine ⟨fun i hi => ?_, fun s hs => ?_⟩
      · obtain ⟨r, hr, hrest⟩ := hmoves i hi
        exact ⟨r, .tail _ hr, hrest⟩
      · rcases mem_cons.mp hs with rfl | hs
        · exact Or.inl (.head _)
        · exact (hsources s hs).imp_left (.tail _)

/-- Saving leaves what was there and makes every argument's value available where it is to be found. -/
theorem runs_saves {needsSave : Register → Bool} {args : List Register} {table : RegisterTable} {values}
    {a : Activation} {code} (memory : Memory) (hrest : a.rest = (saveArguments needsSave args table).1 ++ code)
    (hsettled : ∀ r ∈ args, table.Settled r.id)
    (hvals : Forall₂ (fun r v => a.registers.get? r.id = some v) args values) :
    ∃ k b, a.Runs memory k b ∧ b.procedure = a.procedure ∧ b.rest = code ∧
      (∀ id, table.Settled id → b.registers.get? id = a.registers.get? id) ∧
      Forall₂ (fun s v => b.registers.get? s.id = some v)
        (saveArguments needsSave args table).2.1 values := by
  induction args generalizing table a values with
  | nil =>
    cases hvals
    exact ⟨0, a, .refl a, rfl, hrest, fun _ _ => rfl, .nil⟩
  | cons arg rest ih =>
    cases hvals with
    | @cons _ v _ _ hv hvals =>
      have hsettled' : ∀ r ∈ rest, table.Settled r.id := fun r hr => hsettled r (.tail _ hr)
      rw [saveArguments] at hrest ⊢
      split at hrest
      · rename_i hsave
        rw [if_pos hsave]
        have hlen : table.length ≤ (table ++ [table.fresh arg.type]).length := by simp
        obtain ⟨a', ha', hf', hcode', hget'⟩ := Activation.react_of_move memory hrest hv
        have hkept' : ∀ id, table.Settled id → a'.registers.get? id = a.registers.get? id := fun id hid =>
          (hget' id).trans (if_neg fun h => hid table.length (Nat.le_refl _) h.symm)
        obtain ⟨k, b, hruns, hf, hcode, hkept, hsources⟩ := ih hcode'
          (fun r hr => (hsettled' r hr).mono hlen)
          (forall₂_of_mem hvals fun r hr v hv => (hkept' _ (hsettled' r hr)).trans hv)
        refine ⟨k + 1, b, .head ha' hruns, hf.trans hf', hcode,
          fun id hid => (hkept id (hid.mono hlen)).trans (hkept' id hid), .cons ?_ hsources⟩
        exact (hkept _ (table.settled_fresh _)).trans ((hget' _).trans (if_pos rfl))
      · rename_i hsave
        rw [if_neg hsave]
        obtain ⟨k, b, hruns, hf, hcode, hkept, hsources⟩ := ih hrest hsettled' hvals
        exact ⟨k, b, hruns, hf, hcode, hkept, .cons ((hkept _ (hsettled _ (.head _))).trans hv) hsources⟩

/-! ## Moves to the parameters -/

/-- The parameter gets a new value. -/
def Moved (t : Parameter × Register × Register) : Prop := t.2.1.id ≠ t.1.register.id

/-- Moves whose sources none of them changes give all parameters their new values. -/
theorem runs_moves {triples} {a : Activation} (memory : Memory)
    (hrest : a.rest = (triples.filterMap fun (q, r, s) => rebindMove? q r s) ++ code)
    (hdistinct : (triples.map (·.1.register.id)).Nodup)
    (hsources : ∀ t ∈ triples, ∀ u ∈ triples, Moved u → u.1.register.id ≠ t.2.2.id)
    (hvals : Forall₂ (fun t v => a.registers.get? t.2.2.id = some v ∧
      (¬Moved t → a.registers.get? t.1.register.id = some v)) triples values) :
    ∃ k b, a.Runs memory k b ∧ b.procedure = a.procedure ∧ b.rest = code ∧
      (∀ id, (∀ t ∈ triples, Moved t → t.1.register.id ≠ id) → b.registers.get? id = a.registers.get? id) ∧
      Forall₂ (fun t v => b.registers.get? t.1.register.id = some v) triples values := by
  induction triples generalizing a values with
  | nil =>
    cases hvals
    exact ⟨0, a, .refl a, rfl, hrest, fun _ _ => rfl, .nil⟩
  | cons t triples ih =>
    obtain ⟨q, r, s⟩ := t
    cases hvals with
    | @cons _ v _ _ hv hvals =>
      obtain ⟨hnotMem, hdistinct⟩ := nodup_cons.mp hdistinct
      have hother : ∀ u ∈ triples, u.1.register.id ≠ q.register.id := fun u hu h =>
        hnotMem (mem_map.mpr ⟨u, hu, h⟩)
      have hsources' : ∀ t ∈ triples, ∀ u ∈ triples, Moved u → u.1.register.id ≠ t.2.2.id :=
        fun t ht u hu => hsources t (.tail _ ht) u (.tail _ hu)
      by_cases hmoved : Moved (q, r, s)
      · have hmove : rebindMove? q r s =
            some ⟨.move s q.register, s!"Rebind {q.name} for the next iteration"⟩ :=
          if_neg fun h => hmoved (beq_iff_eq.mp h)
        simp only [filterMap_cons, hmove] at hrest
        obtain ⟨a', ha', hf', hcode', hget'⟩ := Activation.react_of_move memory hrest hv.1
        have hkept' : ∀ {id}, q.register.id ≠ id → a'.registers.get? id = a.registers.get? id := fun hid =>
          (hget' _).trans (if_neg hid)
        obtain ⟨k, b, hruns, hf, hcode, hkept, hfinal⟩ := ih hcode' hdistinct hsources'
          (forall₂_of_mem hvals fun t ht v ⟨hsource, hstays⟩ =>
            ⟨(hkept' (hsources t (.tail _ ht) _ (.head _) hmoved)).trans hsource,
              fun hm => (hkept' (Ne.symm (hother t ht))).trans (hstays hm)⟩)
        refine ⟨k + 1, b, .head ha' hruns, hf.trans hf', hcode, fun id hid => ?_, .cons ?_ hfinal⟩
        · exact (hkept id fun t ht => hid t (.tail _ ht)).trans (hkept' (hid _ (.head _) hmoved))
        · exact (hkept _ fun t ht _ => hother t ht).trans ((hget' _).trans (if_pos rfl))
      · have hmove : rebindMove? q r s = none := if_pos (beq_iff_eq.mpr (not_not.mp hmoved))
        simp only [filterMap_cons, hmove] at hrest
        obtain ⟨k, b, hruns, hf, hcode, hkept, hfinal⟩ := ih hrest hdistinct hsources' hvals
        refine ⟨k, b, hruns, hf, hcode, fun id hid => hkept id fun t ht => hid t (.tail _ ht),
          .cons ?_ hfinal⟩
        exact (hkept _ fun t ht _ => hother t ht).trans (hv.2 hmoved)

/-! ## Both together -/

theorem forall₂_of_zip {params : List Parameter} {args} {R S : Register → Value → Prop}
    (hlen : params.length = args.length) (hR : Forall₂ R args values) (hS : Forall₂ S sources values) :
    Forall₂ (fun t v => R t.2.1 v ∧ S t.2.2 v) (params.zip (args.zip sources)) values := by
  induction hR generalizing params sources with
  | nil =>
    cases hS
    obtain rfl := length_eq_zero_iff.mp hlen
    exact .nil
  | cons hr _ ih =>
    cases hS with
    | cons hs hS =>
      cases params with
      | nil => cases hlen
      | cons => exact .cons ⟨hr, hs⟩ (ih (Nat.succ.inj hlen) hS)

/-- A parameter that gets a new value is rebound. -/
theorem mem_rebound {f : Procedure} {arguments} (hu : u ∈ f.parameters.zip (arguments.zip sources))
    (hm : Moved u) : u.1.register ∈ f.rebound arguments := by
  obtain ⟨i, hi⟩ := getElem?_of_mem hu
  rw [getElem?_zip_eq_some, getElem?_zip_eq_some] at hi
  refine mem_map.mpr ⟨(u.1, u.2.1), mem_filter.mpr ⟨?_, ?_⟩, rfl⟩
  · exact mem_of_getElem? (getElem?_zip_eq_some.mpr ⟨hi.1, hi.2.1⟩)
  · rw [Bool.not_eq_true']
    exact beq_eq_false_iff_ne.mpr hm

/-- No rebound parameter is where a new value is found after saving. -/
theorem rebound_ne_source {f : Procedure} {table} (hparameters : ∀ q ∈ f.parameters, table.Settled q.register.id)
    (hs : sources = (saveArguments
      (fun r => f.isParameterRegister r && (f.rebound arguments).any (·.same r)) arguments table).2.1)
    (ht : t ∈ f.parameters.zip (arguments.zip sources)) (hu : u ∈ f.parameters.zip (arguments.zip sources))
    (hm : Moved u) : u.1.register.id ≠ t.2.2.id := by
  intro heq
  have hrs := forall₂_zip (saveArguments_sources _ arguments table) (hs ▸ (of_mem_zip ht).2)
  have huq : u.1 ∈ f.parameters := (of_mem_zip hu).1
  rcases hrs.2 with ⟨-, hfresh⟩ | ⟨hsave, hsource⟩
  · exact hfresh (heq ▸ hparameters u.1 huq)
  · rw [hsource] at heq
    rw [Bool.and_eq_false_iff] at hsave
    rcases hsave with hsave | hsave
    · have hany : f.isParameterRegister t.2.1 = true :=
        any_eq_true.mpr ⟨u.1, huq, beq_iff_eq.mpr heq⟩
      rw [hany] at hsave
      cases hsave
    · have hany : (f.rebound arguments).any (·.same t.2.1) = true :=
        any_eq_true.mpr ⟨u.1.register, mem_rebound hu hm, beq_iff_eq.mpr heq⟩
      rw [hany] at hsave
      cases hsave

/-- Rebinding is made of moves to parameters and to new registers, within the new table and, if the arguments have the
types of the parameters, between registers of one type. -/
theorem rebindParameters_moves {f : Procedure} (hi : i ∈ (f.rebindParameters args table).1) :
    ∃ s t, i.operation = .move s t ∧
      (t.id ∈ f.parameterIds ∨ t ∈ (f.rebindParameters args table).2 ∧ ¬table.Settled t.id) ∧
      ((∀ q ∈ f.parameters, q.register ∈ table) → (∀ r ∈ args, r ∈ table) →
        s ∈ (f.rebindParameters args table).2 ∧ t ∈ (f.rebindParameters args table).2) ∧
      (args.map Register.type = f.parameters.map (·.register.type) → s.type = t.type) := by
  rw [rebindParameters] at hi ⊢
  generalize hneeds : (fun a => f.isParameterRegister a && (f.rebound args).any (·.same a)) = needsSave at hi ⊢
  have hfront := (saveArguments_table needsSave args table).1
  have hsaves := saveArguments_moves needsSave args table
  have hsourceTypes := saveArguments_sources needsSave args table
  dsimp only at hi ⊢
  generalize saveArguments needsSave args table = saved at *
  obtain ⟨_, sources, _⟩ := saved
  rcases mem_append.mp hi with hi | hi
  · obtain ⟨r, hr, s, hs, hop, htype, hfresh⟩ := hsaves.1 i hi
    exact ⟨r, s, hop, .inr ⟨hs, hfresh⟩, fun _ hargs => ⟨hfront.subset (hargs r hr), hs⟩, fun _ => htype⟩
  · obtain ⟨⟨q, r, s⟩, ht, hmove⟩ := mem_filterMap.mp hi
    obtain ⟨k, hk⟩ := getElem?_of_mem ht
    rw [getElem?_zip_eq_some, getElem?_zip_eq_some] at hk
    obtain ⟨hq, hr, hs⟩ := hk
    have hparam := mem_of_getElem? hq
    unfold rebindMove? at hmove
    split at hmove <;> cases hmove
    refine ⟨s, q.register, rfl, .inl (mem_map.mpr ⟨q, hparam, rfl⟩), fun hparams hargs => ⟨?_, ?_⟩, fun htypes => ?_⟩
    · rcases hsaves.2 s (mem_of_getElem? hs) with hs | hs
      · exact hfront.subset (hargs s hs)
      · exact hs
    · exact hfront.subset (hparams q hparam)
    · have hrs := forall₂_zip hsourceTypes
        (mem_of_getElem? (getElem?_zip_eq_some.mpr ⟨hr, hs⟩) : (r, s) ∈ args.zip sources)
      have hk := congrArg (·[k]?) htypes
      simp only [getElem?_map, hq, hr, Option.map_some, Option.some.injEq] at hk
      exact hrs.1.trans hk

theorem rebindParameters_isLabel {f : Procedure} (hi : i ∈ (f.rebindParameters args table).1) :
    i.operation.isLabel = false := by
  obtain ⟨_, _, hop, -⟩ := rebindParameters_moves hi
  rw [hop]
  rfl

/-- Rebinding gives all parameters the values that the arguments had before it, and leaves what is neither a parameter
nor new as it was. -/
theorem runs_rebinding {f : Procedure} {a : Activation}
    (memory : Memory) (hrest : a.rest = (f.rebindParameters args table).1 ++ code)
    (hdistinct : f.parameterIds.Nodup) (hparams : ∀ q ∈ f.parameters, table.Settled q.register.id)
    (hsettled : ∀ r ∈ args, table.Settled r.id) (hlen : f.parameters.length = args.length)
    (hvalues : Forall₂ (fun r v => a.registers.get? r.id = some v) args values) :
    ∃ k b, a.Runs memory k b ∧ b.procedure = a.procedure ∧ b.rest = code ∧
      Forall₂ (fun q v => b.registers.get? q.register.id = some v) f.parameters values ∧
      ∀ id ∉ f.parameterIds, table.Settled id → b.registers.get? id = a.registers.get? id := by
  simp only [rebindParameters, append_assoc] at hrest
  obtain ⟨k, b, hruns, hf, hcode, hkept, hsources⟩ := runs_saves memory hrest hsettled hvalues
  generalize hsourcesEq : (saveArguments _ args table).2.1 = sources at hcode hsources
  have hlengths : f.parameters.length = (args.zip sources).length := by
    rw [length_zip, ← hvalues.length_eq.trans hsources.length_eq.symm, Nat.min_self, hlen]
  have hfst : (f.parameters.zip (args.zip sources)).map Prod.fst = f.parameters := map_fst_zip (Nat.le_of_eq hlengths)
  have hdistinct' : ((f.parameters.zip (args.zip sources)).map (·.1.register.id)).Nodup := by
    rw [parameterIds, ← hfst, map_map] at hdistinct
    exact hdistinct
  have hvalues' := forall₂_of_zip hlen
    (forall₂_of_mem hvalues fun r hr v hv => (hkept r.id (hsettled r hr)).trans hv) hsources
  obtain ⟨l, c, hruns', hf', hcode', hkept', hfinal⟩ := runs_moves memory hcode hdistinct'
    (fun t ht u hu hm => rebound_ne_source hparams hsourcesEq.symm ht hu hm)
    (hvalues'.imp fun t v h => ⟨h.2, fun hm => by rw [← not_not.mp hm]; exact h.1⟩)
  refine ⟨k + l, c, hruns.trans hruns', hf'.trans hf, hcode', ?_, fun id hid hsettled => ?_⟩
  · rw [← hfst, forall₂_map_left_iff]
    exact hfinal
  · refine (hkept' id fun t ht _ heq => hid ?_).trans (hkept id hsettled)
    exact mem_map.mpr ⟨t.1, (of_mem_zip ht).1, heq⟩

/-- A call of the procedure itself rebinds its parameters all at once, whatever registers the arguments are and however
many registers earlier calls have added to the table. The moves, run wherever they stand, give every parameter what its
argument held before the first of them. No other register of the table changes, and what else is written to is new. -/
theorem rebindParameters_simultaneous {f : Procedure} {table : RegisterTable} {args dest} {a : Activation} {code}
    (hdistinct : f.parameterIds.Nodup) (hparams : ∀ q ∈ f.parameters, q.register ∈ f.registers)
    (hmentions : ∀ i ∈ f.instructions, ∀ r ∈ i.operation.mentions, r ∈ f.registers)
    (hfront : f.registers <+: table) (hnumbered : table.IsNumbered)
    (hcall : i ∈ f.instructions ∧ i.operation = .call (.function f.symbol) args dest)
    (hlen : f.parameters.length = args.length) (hassigned : ∀ r ∈ args, (a.registers.get? r.id).isSome)
    (hrest : a.rest = (f.rebindParameters args table).1 ++ code) (memory : Memory) :
    (∃ k b, a.Runs memory k b ∧ b.procedure = a.procedure ∧ b.rest = code ∧
      (∀ (n : Nat) (q : Parameter) (r : Register), f.parameters[n]? = some q → args[n]? = some r →
        b.registers.get? q.register.id = a.registers.get? r.id) ∧
      ∀ r ∈ table, r.id ∉ f.parameterIds → b.registers.get? r.id = a.registers.get? r.id) ∧
    ∀ j ∈ (f.rebindParameters args table).1, ∃ source target, j.operation = .move source target ∧
      (target.id ∈ f.parameterIds ∨
        target ∈ (f.rebindParameters args table).2 ∧ ∀ r ∈ table, r.id ≠ target.id) := by
  have hsettled : ∀ r ∈ f.registers, table.Settled r.id := fun r hr => hnumbered.settled (hfront.subset hr)
  have hargs : ∀ r ∈ args, r ∈ f.registers := fun r hr =>
    hmentions i hcall.1 r (mem_append_left _ (by rw [hcall.2]; exact hr))
  have hvalues : Forall₂ (fun r v => a.registers.get? r.id = some v) args
      (args.map fun r => (a.registers.get? r.id).getD .null) := by
    rw [forall₂_map_right_iff, forall₂_same]
    intro r hr
    obtain ⟨v, hv⟩ := Option.isSome_iff_exists.mp (hassigned r hr)
    rw [hv, Option.getD_some]
  obtain ⟨k, b, hruns, hproc, hcode, hfinal, hkept⟩ := runs_rebinding memory hrest hdistinct
    (fun q hq => hsettled _ (hparams q hq)) (fun r hr => hsettled r (hargs r hr)) hlen hvalues
  refine ⟨⟨k, b, hruns, hproc, hcode, fun n q r hq hr => ?_, fun r hr hid => hkept _ hid (hnumbered.settled hr)⟩, ?_⟩
  · obtain ⟨v, hv⟩ := Option.isSome_iff_exists.mp (hassigned r (mem_of_getElem? hr))
    rw [forall₂_map_right_iff] at hfinal
    rw [forall₂_zip hfinal (mem_of_getElem? (getElem?_zip_eq_some.mpr ⟨hq, hr⟩)), hv, Option.getD_some]
  · intro j hj
    obtain ⟨source, target, hop, htarget, -⟩ := rebindParameters_moves hj
    refine ⟨source, target, hop, htarget.imp_right fun h => ⟨h.1, fun r hr heq => h.2 ?_⟩⟩
    rw [← heq]
    exact hnumbered.settled hr

/-- The first two of four parameters exchanged, the first once more, and the last kept. -/
def exchanged : List Register := [⟨2, .u8⟩, ⟨1, .u8⟩, ⟨1, .u8⟩, ⟨4, .u8⟩]

def exchange : Procedure :=
  let registers : List Register := [⟨1, .u8⟩, ⟨2, .u8⟩, ⟨3, .u8⟩, ⟨4, .u8⟩]
  ⟨⟨"M", "exchange", []⟩, registers.map (⟨"", ·⟩), .void, [], registers,
    [⟨.call (.function ⟨"M", "exchange", []⟩) exchanged none, ""⟩, ⟨.ret none, ""⟩], false, true, .standard⟩

/-- The moves alone, with a value in each parameter. -/
def exchanging : Activation :=
  ⟨{ exchange with instructions := (exchange.rebindParameters exchanged exchange.registers).1 }, 0,
    [(1, .number 10), (2, .number 20), (3, .number 30), (4, .number 40)]⟩

theorem exchange_simultaneous : exchanging.rest.length = 6 ∧
    ∃ k b, exchanging.Runs [] k b ∧ b.rest = [] ∧ [1, 2, 3, 4].map (b.registers.get? ·) =
      [some (.number 20), some (.number 10), some (.number 10), some (.number 40)] := by
  have hrest : exchanging.rest = (exchange.rebindParameters exchanged exchange.registers).1 ++ [] :=
    (append_nil exchanging.rest).symm
  obtain ⟨⟨k, b, hruns, -, hcode, hfinal, -⟩, -⟩ := rebindParameters_simultaneous (by decide) (by decide) (by decide)
    (prefix_refl _) (by decide) ⟨.head _, rfl⟩ rfl (by decide) hrest []
  refine ⟨rfl, k, b, hruns, hcode, ?_⟩
  rw [map_cons, map_cons, map_cons, map_cons, show b.registers.get? 1 = _ from hfinal 0 _ _ rfl rfl,
    show b.registers.get? 2 = _ from hfinal 1 _ _ rfl rfl, show b.registers.get? 3 = _ from hfinal 2 _ _ rfl rfl,
    show b.registers.get? 4 = _ from hfinal 3 _ _ rfl rfl]
  rfl

end Procedure

end Retarget
