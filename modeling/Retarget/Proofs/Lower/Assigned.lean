import Retarget.Proofs.Code.Assigned
import Retarget.Proofs.Lower.Shape

/-!
# Lowered code reads only what is assigned

The home of every name in scope is assigned, and the code of an expression assigns the register of its value.
So no lowered code reads a register before it has a value, whichever way it is run through.
-/
namespace Retarget

theorem CodeTree.ReadsAssigned.step {reg} (h : reg.id ∈ before) :
    (plain (.step dir reg)).ReadsAssigned before :=
  ⟨fun _ hr => List.mem_singleton.mp hr ▸ h, rfl⟩

/-- The code reads only what is assigned, and assigns the registers. -/
structure CodeTree.Assigns (before : Set Numeral) (code : CodeTree) (registers : List Register) : Prop where
  reads : code.ReadsAssigned before
  assigned : ∀ r ∈ registers, r.id ∈ code.assigned before

namespace CodeTree.Assigns

variable {before : Set Numeral} {code code' : CodeTree} {registers registers' : List Register} {operation : Operation}

theorem empty : empty.Assigns before [] := ⟨trivial, nofun⟩

theorem append (h : code.Assigns before regs) (h' : code'.Assigns (code.assigned before) regs')
    (hstruct : code'.IsStructured) : (code ++ code').Assigns before (regs ++ regs') where
  reads := ⟨h.reads, h'.reads⟩
  assigned r hr := by
    rcases List.mem_append.mp hr with hr | hr
    · exact subset_assigned hstruct (h.assigned r hr)
    · exact h'.assigned r hr

theorem plain (hreads : ∀ r ∈ op.reads, r.id ∈ before) (hresults : op.results = [r])
    (hwrites : op.writes = [r]) (hlabel : op.isLabel = false) :
    (plain op).Assigns before [r] where
  reads := ⟨hreads, hresults.trans hwrites.symm⟩
  assigned other hother := op.given_subset_after hlabel ⟨other, hresults ▸ hother, rfl⟩

theorem weaken (h : code.Assigns before registers) (hsub : registers' ⊆ registers) : code.Assigns before registers' :=
  ⟨h.reads, fun r hr => h.assigned r (hsub hr)⟩

/-- An operation that reads what the code before it has assigned. -/
theorem extend (h : code.Assigns before regs) (hreads : op.reads ⊆ regs)
    (hresults : op.results = [r]) (hwrites : op.writes = [r]) (hlabel : op.isLabel = false) :
    (code ++ .plain op).Assigns before (regs ++ [r]) where
  reads := ⟨h.reads, fun other hother => h.assigned other (hreads hother), hresults.trans hwrites.symm⟩
  assigned other hother := by
    rcases List.mem_append.mp hother with hother | hother
    · exact op.subset_after hlabel (h.assigned other hother)
    · exact op.given_subset_after hlabel ⟨other, hresults ▸ hother, rfl⟩

theorem computes (h : code.Assigns before regs) (hreads : op.reads ⊆ regs)
    (hresults : op.results = [r]) (hwrites : op.writes = [r]) (hlabel : op.isLabel = false) :
    (code ++ .plain op).Assigns before [r] :=
  (h.extend hreads hresults hwrites hlabel).weaken (List.subset_append_right ..)

theorem moved (h : code.Assigns before [source]) (target : Register) :
    (code ++ .plain (.move source target)).Assigns before [target] :=
  h.computes (List.Subset.refl _) rfl rfl rfl

theorem addressed (h : code.Assigns before regs) :
    (code ++ .plain (.addressOf symbol addr)).Assigns before (regs ++ [addr]) :=
  h.extend nofun rfl rfl rfl

theorem does (h : code.Assigns before regs) (hreads : op.reads ⊆ regs)
    (hresults : op.results = op.writes) : (code ++ .plain op).Assigns before [] :=
  ⟨⟨h.reads, fun other hother => h.assigned other (hreads hother), hresults⟩, nofun⟩

/-- A choice between two parts, both of which assign the register. -/
theorem branch {whenTrue whenFalse} (h : code.Assigns before [test])
    (htrue : whenTrue.Assigns (code.assigned before) [r]) (hfalse : whenFalse.Assigns (code.assigned before) [r]) :
    (code ++ .branch test elseLabel endLabel whenTrue whenFalse).Assigns before [r] where
  reads := ⟨h.reads, h.assigned test (.head _), htrue.reads, hfalse.reads⟩
  assigned other hother := ⟨htrue.assigned other hother, hfalse.assigned other hother⟩

end CodeTree.Assigns

namespace Lower

/-- The homes of all names in scope are assigned. -/
def State.Homes (s : State) (before : Set Numeral) : Prop :=
  ∀ name home, s.draft.scope.get? name = some home → home.id ∈ before

namespace State.Homes

variable {s t : State} {before before' : Set Numeral}

theorem mono (h : s.Homes before) (hscope : t.draft.scope = s.draft.scope) (hsub : before ⊆ before') :
    t.Homes before' :=
  fun name home hhome => hsub (h name home (hscope ▸ hhome))

/-- They stay so behind code that declares nothing. -/
theorem behind (h : s.Homes before) (hlays : Lays s code t ∧ t.draft.scope = s.draft.scope) :
    t.Homes (code.assigned before) :=
  h.mono hlays.2 (CodeTree.subset_assigned hlays.1.labelled.structured)

theorem declared (h : s.Homes before) (hsub : before ⊆ before') (hfresh : (s.fresh type).id ∈ before') :
    (s.declared name type).Homes before' := by
  intro other home hhome
  have hhome : (s.draft.scope.set name (s.fresh type)).get? other = some home := hhome
  rw [Assoc.get?_set] at hhome
  split at hhome
  · cases hhome
    exact hfresh
  · exact hsub (h other home hhome)

end State.Homes

variable {ctx : Context}

attribute [local simp] Operation.reads

mutual

theorem LowersExpression.assigns :
    LowersExpression ctx e s r code t → s.Homes before → code.Assigns before [r]
  | .number .., _ | .boolean, _ | .string .., _ | .addressOf _, _ => .plain nofun rfl rfl rfl
  | .identifier bound, hs => by
    refine CodeTree.Assigns.plain ?_ rfl rfl rfl
    intro r hr
    rw [List.mem_singleton.mp hr]
    exact hs _ _ bound
  | .global .., _ => by
    exact CodeTree.Assigns.computes (.plain nofun rfl rfl rfl) (by simp) rfl rfl rfl
  | .binary _ _ _ first second .., hs | .comparison first second .., hs => by
    have hoperands := (first.assigns hs).append (second.assigns (hs.behind first.lays))
      second.lays.1.labelled.structured
    exact hoperands.computes (by simp) rfl rfl rfl
  | .not lower, hs | .index lower, hs | .dereference _ _ lower, hs | .keep _ _ lower, hs
  | .convert _ _ lower .., hs => (lower.assigns hs).computes (by simp) rfl rfl rfl
  | .call lower, hs => lower.assigns hs
  | .ternary _ _ _ _ _ lowerTest startsTrue lowerTrue startsFalse lowerFalse, hs => by
    have hbehind := State.Homes.behind (by exact hs) lowerTest.lays
    have htrue := lowerTrue.assigns (hbehind.mono (startsTrue ▸ rfl) subset_rfl)
    have hfalse := lowerFalse.assigns
      (hbehind.mono (startsFalse ▸ lowerTrue.lays.2.trans (startsTrue ▸ rfl)) subset_rfl)
    exact (lowerTest.assigns hs).branch (htrue.moved _) (hfalse.moved _)

theorem LowersArguments.assigns :
    LowersArguments ctx args s regs code t → s.Homes before →
      code.Assigns before regs
  | .nil, _ => .empty
  | .cons first remaining, hs =>
    (first.assigns hs).append (remaining.assigns (hs.behind first.lays)) remaining.lays.1.labelled.structured

theorem LowersElement.assigns {name index s t address element code before} :
    LowersElement ctx name index s address element code t → s.Homes before → code.Assigns before [address]
  | .element _ _ _ _ lower isBase _, hs => by
    subst isBase
    exact (lower.assigns hs).addressed.computes (by simp) rfl rfl rfl

theorem LowersCall.assigns {args type callee s t result code before} :
    LowersCall ctx args type callee s result code t → s.Homes before → code.Assigns before result.toList
  | .routine _ _ lower, hs => (lower.assigns hs).does (List.Subset.refl _) rfl
  | .procedure resolves lower .., hs =>
    (lower.assigns (hs.mono (congrArg (·.scope) resolves.draft_eq) subset_rfl)).does (List.Subset.refl _) rfl
  | .function resolves lower .., hs =>
    (lower.assigns (hs.mono (congrArg (·.scope) resolves.draft_eq) subset_rfl)).computes
      (List.Subset.refl _) rfl rfl rfl

end

theorem LowersAssignment.assigns (h : LowersAssignment ctx value target s code t)
    (hs : s.Homes before) : code.Assigns before [] ∧ t.draft.scope = s.draft.scope := by
  cases h with
  | named lower => exact ⟨(lower.assigns hs).does (by simp) rfl, lower.lays.2⟩
  | global _ _ _ lower isAddress =>
    subst isAddress
    exact ⟨(lower.assigns hs).addressed.does (by simp) rfl, lower.lays.2⟩
  | index lowerTarget lower | dereference lowerTarget lower =>
    have hoperands := (lowerTarget.assigns hs).append (lower.assigns (hs.behind lowerTarget.lays))
      lower.lays.1.labelled.structured
    exact ⟨hoperands.does (by simp) rfl, lower.lays.2.trans lowerTarget.lays.2⟩

theorem LowersForHead.assigns
    (h : LowersForHead ctx name type first limit s counter header exit code code' test t) (hs : s.Homes before) :
    code.Assigns before [counter] ∧ code'.Assigns (code.assigned before) [test] ∧
      t.Homes (code'.assigned (code.assigned before)) := by
  cases h with
  | @head a b v v' start bound _ current scalar _ _ _ _ why₁ why₂ why₃ why₄ why₅ lowerFirst lowerLimit resolved
      numeric same isCounter isHeader isExit isStarted isCurrent isRead =>
    subst isCounter isStarted isCurrent isRead
    have hbounds := (lowerFirst.assigns hs).append (lowerLimit.assigns (hs.behind lowerFirst.lays))
      lowerLimit.lays.1.labelled.structured
    have hcounter : CodeTree.Assigns before (_ ++ .plain (.move start (b.fresh scalar))) _ :=
      hbounds.extend (by simp) rfl rfl rfl
    have hbehind := (hs.behind lowerFirst.lays).behind lowerLimit.lays
    refine ⟨hcounter.weaken (List.subset_append_right ..), ⟨⟨⟨?_, rfl⟩, ?_, rfl⟩, ?_⟩, ?_⟩
    · intro r hr
      exact hcounter.assigned r (List.mem_append_right _ hr)
    · intro r hr
      rcases List.mem_pair.mp hr with rfl | rfl
      · exact Or.inr ⟨_, .head _, rfl⟩
      · exact Or.inl (hcounter.assigned _ (by simp))
    · intro r hr
      exact Or.inr ⟨r, hr, rfl⟩
    · have hdeclared : (b.declared name scalar).Homes _ := hbehind.declared Set.subset_union_left
        (hcounter.assigned _ (by simp))
      exact hdeclared.mono rfl fun _ h => Or.inl (Or.inl h)

mutual

/-- The names in scope behind a statement have homes that are assigned there. -/
theorem LowersStatement.assigns {stmt s t code before} :
    LowersStatement ctx stmt s code t → s.Homes before → code.IsStructured →
      code.ReadsAssigned before ∧ t.Homes (code.assigned before)
  | .initialized lower _ _ isHome, hs, _ => by
    subst isHome
    exact ⟨((lower.assigns hs).moved _).reads, (hs.behind lower.lays).declared Set.subset_union_left
      (Or.inr ⟨_, .head _, rfl⟩)⟩
  | .zeroed _ _ isHome, hs, _ => by
    subst isHome
    exact ⟨⟨nofun, rfl⟩, hs.declared Set.subset_union_left (Or.inr ⟨_, .head _, rfl⟩)⟩
  | .assignment lower, hs, hstruct => by
    obtain ⟨hcode, hscope⟩ := lower.assigns hs
    exact ⟨hcode.reads, hs.mono hscope (CodeTree.subset_assigned hstruct)⟩
  | .increment bound _, hs, hstruct | .decrement bound _, hs, hstruct =>
    ⟨.step (hs _ _ bound), hs.mono rfl (CodeTree.subset_assigned hstruct)⟩
  | .call lower, hs, _ | .expression _ lower, hs, _ => ⟨(lower.assigns hs).reads, hs.behind lower.lays⟩
  | .ret lower, hs, _ => ⟨((lower.assigns hs).does (List.Subset.refl _) rfl).reads, fun _ _ _ => trivial⟩
  | .retNone, _, _ => ⟨⟨nofun, rfl⟩, fun _ _ _ => trivial⟩
  | .conditional _ _ lowerTest startsTrue lowerTrue startsFalse lowerFalse, hs, hstruct => by
    have htest := lowerTest.assigns hs
    have hbehind := State.Homes.behind (by exact hs) lowerTest.lays
    obtain ⟨htrue, -⟩ := lowerTrue.assigns (hbehind.mono (startsTrue ▸ rfl) subset_rfl) hstruct.2.1
    obtain ⟨hfalse, -⟩ := lowerFalse.assigns (hbehind.mono (startsFalse ▸ startsTrue ▸ rfl) subset_rfl) hstruct.2.2
    refine ⟨⟨htest.reads, htest.assigned _ (.head _), htrue, hfalse⟩, ?_⟩
    subst startsFalse startsTrue
    exact hs.mono lowerTest.lays.2 (CodeTree.subset_assigned hstruct)
  | .whileLoop _ _ isStarted lowerTest isBody lowerBody, hs, hstruct => by
    have htest := lowerTest.assigns (hs.mono (isStarted ▸ rfl) subset_rfl)
    have hbehind := (hs.mono (isStarted ▸ rfl) subset_rfl).behind lowerTest.lays
    obtain ⟨hbody, -⟩ := lowerBody.assigns (hbehind.mono (isBody ▸ rfl) subset_rfl) hstruct.2
    refine ⟨⟨htest.reads, htest.assigned _ (.head _), hbody⟩, ?_⟩
    subst isBody
    exact hbehind.mono rfl subset_rfl
  | .forLoop lowerHead lowerBody, hs, hstruct => by
    obtain ⟨hcode, hcond, hbehind⟩ := lowerHead.assigns hs
    obtain ⟨hbody, -⟩ := lowerBody.assigns hbehind hstruct.2.2.1
    refine ⟨⟨hcode.reads, hcond.reads, hcond.assigned _ (.head _), hbody, ?_⟩,
      hs.mono rfl (CodeTree.subset_assigned hstruct)⟩
    have hcounter := CodeTree.subset_assigned hstruct.2.1 (hcode.assigned _ (.head _))
    exact .step (CodeTree.subset_assigned hstruct.2.2.1 hcounter)

theorem LowersStatements.assigns {stmts s t code before} :
    LowersStatements ctx stmts s code t → s.Homes before → code.IsStructured →
      code.ReadsAssigned before ∧ t.Homes (code.assigned before)
  | .nil, hs, _ => ⟨trivial, hs⟩
  | .cons first remaining, hs, hstruct => by
    obtain ⟨hfirst, ht⟩ := first.assigns hs hstruct.1
    obtain ⟨hremaining, hu⟩ := remaining.assigns ht hstruct.2
    exact ⟨⟨hfirst, hremaining⟩, hu⟩

end

theorem LowersParameters.homes {params s t result before} (h : LowersParameters ctx params s result t)
    (hs : s.Homes before) (hsub : ∀ p ∈ result, p.register.id ∈ before) : t.Homes before := by
  induction h with
  | nil => exact hs
  | cons _ _ _ ih =>
    exact ih (State.Homes.declared hs subset_rfl (hsub _ (.head _))) fun p hp => hsub p (.tail _ hp)

theorem Closes.readsAssigned (h : Closes returnType s code code' t)
    (hcode : code.ReadsAssigned before) : code'.ReadsAssigned before := by
  cases h with
  | added => exact ⟨hcode, nofun, rfl⟩
  | kept => exact hcode

/-- A lowered function reads only what is assigned, given its parameters. -/
theorem LowersFunction.flows {symbol shared t f code} (h : LowersFunction ctx symbol ⟨shared, .empty⟩ f code t) :
    ∃ entries, Flows entries {id | id ∈ f.parameterIds} f.operations ∅ := by
  obtain ⟨-, hlays⟩ := h.lays
  have hreads : code.ReadsAssigned {id | id ∈ f.parameterIds} := by
    cases h with
    | @function u _ _ params _ _ _ lowerParameters _ _ lowerBody closes =>
      have hhomes : u.Homes {id | id ∈ params.map (·.register.id)} :=
        lowerParameters.homes nofun fun p hp => List.mem_map.mpr ⟨p, hp, rfl⟩
      exact closes.readsAssigned (lowerBody.assigns hhomes lowerBody.lays.labelled.structured).1
  obtain ⟨entries, hflows⟩ := CodeTree.exists_flows hreads hlays.labelled.structured hlays.labelled.nodup
  refine ⟨entries, ?_⟩
  rw [Procedure.operations, h.operations_eq]
  exact hflows.mono subset_rfl (Set.empty_subset _)

end Lower

end Retarget
