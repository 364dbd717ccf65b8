import Retarget.Proofs.Lower.Layout

/-!
# The shape of lowered code

The operations of a draft are those of the code trees, one behind the other. The labels of a procedure count up
while it is lowered, so each of them has a number of its own.
-/
namespace Retarget.Lower

open CodeTree State

def State.operations (s : State) : List Operation := s.draft.instructions.map (·.operation)

@[simp] theorem State.operations_emitted (s : State) (i : Instruction) :
    (s.emitted i).operations = s.operations ++ [i.operation] := by
  simp [operations, emitted]

@[simp] theorem State.operations_rescoped (s outer : State) : (s.rescoped outer).operations = s.operations := rfl

theorem State.numbered_label (s : State) {kind} (h : kind ∈ labelKinds) :
    Numbered s.draft.labels (s.draft.labels + 1) (s.label kind) :=
  ⟨kind, h, s.draft.labels + 1, rfl, by omega, Nat.le_refl _⟩

/-- The code stands behind what the first state has, and leads to the second. -/
structure Lays (s : State) (code : CodeTree) (t : State) : Prop where
  operations : t.operations = s.operations ++ code.operations
  labelled : code.Labelled s.draft.labels t.draft.labels

namespace Lays

variable {s t u : State} {code code' : CodeTree}

theorem empty (s : State) : Lays s .empty s := ⟨(List.append_nil _).symm, .empty⟩

theorem append (h : Lays s code t) (h' : Lays t code' u) : Lays s (code ++ code') u where
  operations := by rw [h'.operations, h.operations, operations_append, List.append_assoc]
  labelled := h.labelled.append h'.labelled

theorem emitted {op why} (hlabel : op.isLabel = false) (hjump : op.jumpTarget? = none) :
    Lays s (.plain op) (s.emitted ⟨op, why⟩) where
  operations := operations_emitted ..
  labelled := .plain hlabel hjump

theorem computed {type} {op : Register → Operation} {why} (hlabel : (op (s.fresh type)).isLabel = false)
    (hjump : (op (s.fresh type)).jumpTarget? = none) : Lays s (s.computes type op) (s.computed type op why) :=
  ⟨operations_emitted .., .plain hlabel hjump⟩

theorem declared {name type op why} (hlabel : op.isLabel = false) (hjump : op.jumpTarget? = none) :
    Lays s (.plain op) ((s.declared name type).emitted ⟨op, why⟩) :=
  ⟨operations_emitted .., .plain hlabel hjump⟩

/-- Only operations and labels count. -/
theorem of_eq {s'} (h : Lays s code t) (hops : s.operations = s'.operations)
    (hlabels : s.draft.labels = s'.draft.labels) : Lays s' code t where
  operations := hops ▸ h.operations
  labelled := hlabels ▸ h.labelled

theorem of_draft {s'} (h : Lays s code t) (hdraft : s.draft = s'.draft) : Lays s' code t :=
  h.of_eq (by rw [State.operations, hdraft, State.operations]) (congrArg (·.labels) hdraft)

theorem choice {s₁ t' u' v w cond whenTrue whenFalse test elseLabel endLabel kind kind'}
    (hcond : Lays s₁ cond t) (htrue : Lays t' whenTrue u) (hfalse : Lays u' whenFalse v)
    (helse : elseLabel = s.label kind) (hend : endLabel = s.labelled.label kind') (hkind : kind ∈ CodeTree.labelKinds)
    (hkind' : kind' ∈ CodeTree.labelKinds) (hs : s₁.operations = s.operations)
    (hlabels : s₁.draft.labels = s.draft.labels + 2)
    (ht : t'.operations = t.operations ++ [.gotoIfFalse test elseLabel]) (htlabels : t'.draft.labels = t.draft.labels)
    (hu : u'.operations = u.operations ++ [.goto endLabel, .label elseLabel])
    (hulabels : u'.draft.labels = u.draft.labels) (hw : w.operations = v.operations ++ [.label endLabel])
    (hwlabels : w.draft.labels = v.draft.labels) :
    Lays s (cond ++ .branch test elseLabel endLabel whenTrue whenFalse) w where
  operations := by
    rw [hw, hfalse.operations, hu, htrue.operations, ht, hcond.operations, hs]
    simp [CodeTree.operations]
  labelled := by
    subst helse hend
    refine .choice (s.numbered_label hkind) (s.labelled.numbered_label hkind') (hlabels ▸ hcond.labelled)
      (htlabels ▸ htrue.labelled) ?_
    rw [hwlabels, ← hulabels]
    exact hfalse.labelled

theorem loop {s₁ t' v w cond body test header exit kind kind'} (hcond : Lays s₁ cond t)
    (hbody : Lays t' body v) (hheader : header = s.label kind) (hexit : exit = s.labelled.label kind')
    (hkind : kind ∈ CodeTree.labelKinds) (hkind' : kind' ∈ CodeTree.labelKinds)
    (hs : s₁.operations = s.operations ++ [.label header]) (hlabels : s₁.draft.labels = s.draft.labels + 2)
    (ht : t'.operations = t.operations ++ [.gotoIfFalse test exit]) (htlabels : t'.draft.labels = t.draft.labels)
    (hw : w.operations = v.operations ++ [.goto header, .label exit]) (hwlabels : w.draft.labels = v.draft.labels) :
    Lays s (.loop header exit cond test body) w where
  operations := by
    rw [hw, hbody.operations, ht, hcond.operations, hs]
    simp [CodeTree.operations]
  labelled := by
    subst hheader hexit
    refine .loop (s.numbered_label hkind) (s.labelled.numbered_label hkind') (hlabels ▸ hcond.labelled) ?_
    rw [hwlabels, ← htlabels]
    exact hbody.labelled

end Lays

variable {ctx : Context}

/-- Finding out what a callee stands for adds nothing to the draft. -/
theorem Resolves.draft_eq {s t callee symbol} (h : Resolves ctx s callee symbol t) : t.draft = s.draft := by
  cases h <;> rfl

theorem State.draft_interned (s : State) (value : String) : (s.interned value).draft = s.draft := by
  unfold interned
  split <;> rfl

mutual

/-- Expressions leave the names in scope as they are. -/
theorem LowersExpression.lays {e s t r code} :
    LowersExpression ctx e s r code t → Lays s code t ∧ t.draft.scope = s.draft.scope
  | .number .. | .boolean | .identifier _ | .addressOf _ => ⟨.computed rfl rfl, rfl⟩
  | .string isInterned _ => by
    have hdraft := isInterned ▸ s.draft_interned _
    exact ⟨(Lays.computed rfl rfl).of_draft hdraft, congrArg (·.scope) hdraft⟩
  | .global _ _ _ isAddressed => by
    subst isAddressed
    exact ⟨(Lays.computed rfl rfl).append (.computed rfl rfl), rfl⟩
  | .binary _ _ _ first second .. | .comparison first second .. => by
    obtain ⟨hfirst, hscope⟩ := first.lays
    obtain ⟨hsecond, hscope'⟩ := second.lays
    exact ⟨(hfirst.append hsecond).append (.computed rfl rfl), hscope'.trans hscope⟩
  | .not lower | .index lower | .dereference _ _ lower | .keep _ _ lower | .convert _ _ lower .. => by
    obtain ⟨hlower, hscope⟩ := lower.lays
    exact ⟨hlower.append (.computed rfl rfl), hscope⟩
  | .call lower => lower.lays
  | .ternary _ _ _ isElse isEnd lowerTest startsTrue lowerTrue startsFalse lowerFalse => by
    obtain ⟨htest, hscope⟩ := lowerTest.lays
    obtain ⟨htrue, hscope'⟩ := lowerTrue.lays
    obtain ⟨hfalse, hscope''⟩ := lowerFalse.lays
    subst startsTrue startsFalse
    exact ⟨.choice htest (htrue.append (@Lays.emitted _ _ "" rfl rfl)) (hfalse.append (.emitted rfl rfl)) isElse isEnd
      (by decide) (by decide) rfl rfl (operations_emitted ..) rfl (by simp) rfl (operations_emitted ..) rfl,
      hscope''.trans (hscope'.trans hscope)⟩

theorem LowersArguments.lays {args s t regs code} :
    LowersArguments ctx args s regs code t → Lays s code t ∧ t.draft.scope = s.draft.scope
  | .nil => ⟨.empty s, rfl⟩
  | .cons first remaining => by
    obtain ⟨hfirst, hscope⟩ := first.lays
    obtain ⟨hremaining, hscope'⟩ := remaining.lays
    exact ⟨hfirst.append hremaining, hscope'.trans hscope⟩

theorem LowersElement.lays {name index s t addr element code} :
    LowersElement ctx name index s addr element code t → Lays s code t ∧ t.draft.scope = s.draft.scope
  | .element _ _ _ _ lower _ isAddressed => by
    obtain ⟨hlower, hscope⟩ := lower.lays
    subst isAddressed
    exact ⟨(hlower.append (.computed rfl rfl)).append (.computed rfl rfl), hscope⟩

theorem LowersCall.lays {args type callee s t result code} :
    LowersCall ctx args type callee s result code t → Lays s code t ∧ t.draft.scope = s.draft.scope
  | .routine _ _ lower => by
    obtain ⟨hlower, hscope⟩ := lower.lays
    exact ⟨hlower.append (.emitted rfl rfl), hscope⟩
  | .procedure resolves lower .. => by
    obtain ⟨hlower, hscope⟩ := lower.lays
    exact ⟨(hlower.append (.emitted rfl rfl)).of_draft resolves.draft_eq,
      hscope.trans (congrArg (·.scope) resolves.draft_eq)⟩
  | .function resolves lower .. => by
    obtain ⟨hlower, hscope⟩ := lower.lays
    exact ⟨(hlower.append (.computed rfl rfl)).of_draft resolves.draft_eq,
      hscope.trans (congrArg (·.scope) resolves.draft_eq)⟩

end

theorem LowersAssignment.lays {value target s t code} (h : LowersAssignment ctx value target s code t) :
    Lays s code t := by
  cases h with
  | named lower => exact lower.lays.1.append (.emitted rfl rfl)
  | global _ _ _ lower =>
    exact (lower.lays.1.append (.computed rfl rfl)).append (.emitted rfl rfl)
  | index lowerTarget lower | dereference lowerTarget lower =>
    exact (lowerTarget.lays.1.append lower.lays.1).append (.emitted rfl rfl)

/-- A counting loop stands behind what it counts from and to. -/
theorem LowersForHead.lays {name type first limit s t u w counter test header exit code code' body}
    (h : LowersForHead ctx name type first limit s counter header exit code code' test t) (hbody : Lays t body u)
    (hw : w.operations = u.operations ++ [.goto header, .label exit]) (hlabels : w.draft.labels = u.draft.labels) :
    Lays s (code ++ .loop header exit code' test body) w := by
  cases h with
  | @head a b v v' start bound _ current scalar _ _ _ _ why₁ why₂ why₃ why₄ why₅ lowerFirst lowerLimit resolved
      numeric same isCounter isHeader isExit isStarted isCurrent isRead =>
    have hbefore := (lowerFirst.lays.1.append lowerLimit.lays.1).append
      (@Lays.declared b name scalar (.move start counter) why₁ rfl rfl)
    have hcond : Lays v _ (v'.computed .boolean (.compare .lt current bound) why₄) :=
      (isRead ▸ Lays.computed rfl rfl : Lays v (v.computes scalar (.move counter)) v').append (.computed rfl rfl)
    refine hbefore.append (.loop hcond hbody isHeader isExit (by decide) (by decide) ?_ ?_
      (operations_emitted ..) rfl hw hlabels)
    · rw [isStarted]
      exact operations_emitted ..
    · rw [isStarted]
      rfl

mutual

theorem LowersStatement.lays {stmt s t code} :
    LowersStatement ctx stmt s code t → Lays s code t
  | .initialized lower .. => by exact lower.lays.1.append (.declared rfl rfl)
  | .zeroed .. => .declared rfl rfl
  | .assignment lower => lower.lays
  | .increment .. => .emitted rfl rfl
  | .decrement .. => .emitted rfl rfl
  | .call lower => lower.lays.1
  | .expression _ lower => lower.lays.1
  | .ret lower => lower.lays.1.append (.emitted rfl rfl)
  | .retNone => .emitted rfl rfl
  | .conditional isElse isEnd lowerTest startsTrue lowerTrue startsFalse lowerFalse => by
    have htrue := lowerTrue.lays
    have hfalse := lowerFalse.lays
    subst startsTrue startsFalse
    exact .choice lowerTest.lays.1 htrue hfalse isElse isEnd (by decide) (by decide) rfl rfl
      (operations_emitted ..) rfl (by simp) rfl (operations_emitted ..) rfl
  | .whileLoop isHeader isExit isStarted lowerTest isBody lowerBody => by
    have hbody := lowerBody.lays
    have htest := lowerTest.lays.1
    subst isStarted isBody
    exact .loop htest hbody isHeader isExit (by decide) (by decide) (operations_emitted ..) rfl
      (operations_emitted ..) rfl (by simp) rfl
  | .forLoop lowerHead lowerBody => by
    have hbody := lowerBody.lays
    exact lowerHead.lays (hbody.append (@Lays.emitted _ _ "" rfl rfl)) (by simp) rfl

theorem LowersStatements.lays {stmts s t code} :
    LowersStatements ctx stmts s code t → Lays s code t
  | .nil => .empty _
  | .cons first remaining => first.lays.append remaining.lays

end

theorem LowersParameters.unlaid {params s t result} (h : LowersParameters ctx params s result t) :
    t.operations = s.operations ∧ t.draft.labels = s.draft.labels := by
  induction h with
  | nil => exact ⟨rfl, rfl⟩
  | cons _ _ _ ih => exact ih

theorem Closes.lays {returnType s s' t code code'} (h : Closes returnType s' code code' t) (hs : Lays s code s') :
    Lays s code' t := by
  cases h with
  | added => exact hs.append (.emitted rfl rfl)
  | kept => exact hs

/-- The code of a function is that of its procedure. -/
theorem LowersFunction.lays {symbol s t f code} (h : LowersFunction ctx symbol s f code t) :
    f.instructions = t.draft.instructions ∧ Lays s code t := by
  cases h with
  | function lowerParameters _ _ lowerBody closes =>
    obtain ⟨hops, hlabels⟩ := lowerParameters.unlaid
    have hbody := lowerBody.lays.of_eq hops hlabels
    exact ⟨rfl, closes.lays ⟨hbody.operations, hbody.labelled⟩⟩

/-- A procedure has the code that was laid out for it, and nothing else. -/
theorem LowersFunction.operations_eq {symbol shared t f code}
    (h : LowersFunction ctx symbol ⟨shared, .empty⟩ f code t) :
    f.instructions.map (·.operation) = code.operations := by
  obtain ⟨hinstrs, hlays⟩ := h.lays
  rw [hinstrs]
  exact hlays.operations

end Retarget.Lower
