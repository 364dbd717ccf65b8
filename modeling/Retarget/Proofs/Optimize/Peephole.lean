import Retarget.Proofs.Optimize.Fusion
import Retarget.Proofs.Optimize.Pass

/-!
# What the patterns do

Every step of simplification removes an instruction that does nothing, removes two that cancel each other, or
makes one of two. The use counts of the whole procedure show that the temporary between the two is read and
written nowhere else.
-/
namespace Retarget

open List Operation Peephole Register

/-- What a procedure is asked for so that it may be simplified: labels have names of their own, registers have
one type each, and binary operations are on registers of one type. -/
structure Procedure.Tidy (f : Procedure) : Prop where
  labels : (f.instructions.filterMap (·.operation.labelName?)).Nodup
  named : ∀ i ∈ f.instructions, i.operation ≠ .label ""
  types : ∀ r ∈ f.mentioned, ∀ s ∈ f.mentioned, r.id = s.id → r.type = s.type
  operands : ∀ i ∈ f.instructions, ∀ operator l r d, i.operation = .binary operator l r d →
    l.type = d.type ∧ r.type = d.type

inductive Procedure.Simplifies (f g : Procedure) : Prop
  | removes {pre post : List Instruction} {x : Instruction} (replaces : f.Replaces g pre [x] [] post)
      (removable : Removable f pre x post)
  | cancels {pre post : List Instruction} {x y : Instruction} {d d' : Direction} {r s : Register}
      (replaces : f.Replaces g pre [x, y] [] post) (cancels : Cancels x y d d' r s)
  | fuses {pre post : List Instruction} {x y z : Instruction} {t : Register}
      (replaces : f.Replaces g pre [x, y] [z] post) (fusion : Fusion f pre x y z post t)

/-! ## The place of a step -/

/-- A pattern matches one or two neighbouring instructions. -/
inductive Peephole.Pattern.Matches (facts : Facts) (pattern : Pattern) :
    List Instruction → List Instruction → Prop
  | one {x : Instruction} {new : List Instruction} (replaced : pattern.replaceOne? facts x = some new) :
      Matches facts pattern [x] new
  | two {x y : Instruction} {new : List Instruction} (replaced : pattern.replaceTwo? facts x y = some new) :
      Matches facts pattern [x, y] new

theorem Peephole.matches_of_simplifyFront? {pattern : Pattern} (h : pattern.simplifyFront? facts is = some is') :
    ∃ old new post, is = old ++ post ∧ is' = new ++ post ∧ pattern.Matches facts old new := by
  match is with
  | [] => cases h
  | [x] => exact ⟨[x], is', [], rfl, (append_nil _).symm, .one h⟩
  | x :: y :: rest =>
    simp only [Pattern.simplifyFront?] at h
    split at h
    · rename_i new hnew
      cases h
      exact ⟨[x], new, y :: rest, rfl, rfl, .one hnew⟩
    · obtain ⟨new, hnew, rfl⟩ := Option.map_eq_some_iff.mp h
      exact ⟨[x, y], new, rest, rfl, rfl, .two hnew⟩

theorem Peephole.matches_of_simplifyFirst? (h : simplifyFirst? facts is = some (pattern, is')) :
    ∃ pre old new post, is = pre ++ old ++ post ∧ is' = pre ++ new ++ post ∧
      pattern.Matches facts old new := by
  induction is generalizing is' with
  | nil => cases h
  | cons first _ ih =>
    unfold simplifyFirst? at h
    split at h
    · rename_i result hresult
      cases h
      obtain ⟨p, -, hp⟩ := exists_of_findSome?_eq_some hresult
      obtain ⟨_, hjs, heq⟩ := Option.map_eq_some_iff.mp hp
      cases heq
      obtain ⟨old, new, post, hold, hnew, hm⟩ := matches_of_simplifyFront? hjs
      exact ⟨[], old, new, post, hold, hnew, hm⟩
    · obtain ⟨⟨p, _⟩, hjs, heq⟩ := Option.map_eq_some_iff.mp h
      cases heq
      obtain ⟨pre, old, new, post, hold, hnew, hm⟩ := ih hjs
      exact ⟨first :: pre, old, new, post, by rw [hold]; rfl, by rw [hnew]; rfl, hm⟩

/-! ## Temporaries -/

/-- What occurs once in a list occurs in no other part of it than the one where it is found. -/
theorem not_of_countP_flatMap {α β : Type} {φ : α → List β} {p : β → Bool} {pre post x}
    (h : ((pre ++ x :: post).flatMap φ).countP p = 1) {b} (hb : b ∈ φ x) (hp : p b = true) :
    (∀ a ∈ pre ++ post, ∀ c ∈ φ a, p c = false) ∧ (φ x).countP p = 1 := by
  rw [flatMap_append, flatMap_cons, countP_append, countP_append] at h
  have hx : 0 < (φ x).countP p := countP_pos_iff.mpr ⟨b, hb, hp⟩
  refine ⟨fun a ha c hc => ?_, by omega⟩
  rcases mem_append.mp ha with ha | ha
  · have hzero : (pre.flatMap φ).countP p = 0 := by omega
    exact Bool.eq_false_iff.mpr (countP_eq_zero.mp hzero c (mem_flatMap.mpr ⟨a, ha, hc⟩))
  · have hzero : (post.flatMap φ).countP p = 0 := by omega
    exact Bool.eq_false_iff.mpr (countP_eq_zero.mp hzero c (mem_flatMap.mpr ⟨a, ha, hc⟩))

section
variable {f g : Procedure} {pre post : List Instruction} {x y z : Instruction} {t : Register}

theorem Fuses.exists_read {x y z} (h : Fuses t x y z) : ∃ r ∈ y.reads, r.id = t.id := by
  cases h with
  | forward _ same | compareLeft _ same | subtract same => exact ⟨_, .head _, same⟩
  | compareRight _ same => exact ⟨_, .tail _ (.head _), same⟩
  | propagate _ _ reads => exact reads

theorem mem_writes_of_plainDestination? (h : plainDestination? op = some t) : t ∈ op.writes := by
  unfold plainDestination? at h
  split at h
  · cases h
  · exact mem_of_head? h

/-- A temporary that the second of two instructions reads is read nowhere else, nor twice there. -/
theorem reads_of_isSingleUse (hi : f.instructions = pre ++ x :: y :: post)
    (hsingle : Facts.isSingleUse ⟨f.instructions, f.parameterIds⟩ t = true) {r} (hr : r ∈ y.operation.reads)
    (hid : r.id = t.id) :
    (∀ i ∈ pre ++ x :: post, ∀ s ∈ i.operation.reads, s.id ≠ t.id) ∧
      y.operation.reads.countP (·.same t) = 1 := by
  simp only [Facts.isSingleUse, Bool.and_eq_true, beq_iff_eq] at hsingle
  have hcount := hsingle.1.2
  rw [Facts.readCount, hi, append_cons] at hcount
  obtain ⟨hnot, hone⟩ := not_of_countP_flatMap hcount hr (same_iff.mpr hid)
  refine ⟨fun i hi s hs hsame => ?_, hone⟩
  have hfalse := hnot i (by simpa using hi) s hs
  rw [same_iff.mpr hsame] at hfalse
  cases hfalse

/-- A temporary that the first of two instructions writes is written nowhere else. -/
theorem writes_of_isSingleUse (hi : f.instructions = pre ++ x :: y :: post)
    (hsingle : Facts.isSingleUse ⟨f.instructions, f.parameterIds⟩ t = true) (ht : t ∈ x.operation.writes) :
    ∀ i ∈ pre ++ y :: post, ∀ s ∈ i.operation.writes, s.id ≠ t.id := by
  simp only [Facts.isSingleUse, Bool.and_eq_true, beq_iff_eq] at hsingle
  have hcount := hsingle.2
  rw [Facts.writeCount, hi] at hcount
  intro i hi s hs hsame
  have hfalse := (not_of_countP_flatMap hcount ht (same_iff.mpr rfl)).1 i hi s hs
  rw [same_iff.mpr hsame] at hfalse
  cases hfalse

/-- The use counts of a temporary allow the two instructions around it to be made one. -/
theorem fusion_of_isSingleUse (hf : f.Tidy) (hr : f.Replaces g pre [x, y] [z] post)
    (hfuses : Fuses t x.operation y.operation z.operation)
    (hsingle : Facts.isSingleUse ⟨f.instructions, f.parameterIds⟩ t = true) : Fusion f pre x y z post t := by
  have hi : f.instructions = pre ++ x :: y :: post := hr.before.trans (append_assoc ..)
  have hx : x ∈ f.instructions := by simp [hi]
  have hy : y ∈ f.instructions := by simp [hi]
  have ht := mem_writes_of_plainDestination? hfuses.plainDestination?_eq
  obtain ⟨r, hread, hid⟩ := hfuses.exists_read
  refine ⟨hfuses, fun h => ?_, (reads_of_isSingleUse hi hsingle hread hid).1,
    writes_of_isSingleUse hi hsingle ht, fun s hs hsame => ?_, hf.operands x hx⟩
  · simp only [Facts.isSingleUse, Bool.and_eq_true, Bool.not_eq_true', contains_eq_mem,
      decide_eq_false_iff_not] at hsingle
    exact hsingle.1.1 h
  · exact hf.types s (Procedure.mem_mentioned hy (mem_append_left _ hs)) t
      (Procedure.mem_mentioned hx (mem_append_right _ ht)) hsame

/-! ## Patterns -/

theorem simplifies_of_replaceOne? {pattern : Pattern} (hf : f.Tidy) (hr : f.Replaces g pre [x] new post)
    (h : pattern.replaceOne? ⟨f.instructions, f.parameterIds⟩ x = some new) : f.Simplifies g := by
  unfold Pattern.replaceOne? at h
  split at h
  · -- a register moved to itself
    split at h
    · rename_i hsame
      cases h
      exact .removes hr (.selfMove rfl (same_iff.mp hsame))
    · cases h
  · -- a label without jumps to it
    rename_i name why
    split at h
    · cases h
    · rename_i hreferenced
      cases h
      refine .removes hr (.label rfl fun i hi hj => hreferenced ?_)
      have hname : name ≠ "" := by
        rintro rfl
        exact hf.named ⟨.label "", why⟩ (by rw [hr.before]; simp) rfl
      simp only [Facts.isReferenced, Bool.and_eq_true, bne_iff_ne, ne_eq, hname, not_false_eq_true,
        any_eq_true, true_and]
      exact ⟨i, hi, by rw [hj]; exact beq_self_eq_true _⟩
  · cases h

/-- Of two instructions the second is removed. -/
theorem Procedure.Replaces.second (h : f.Replaces g pre [x, y] [x] post) : f.Replaces g (pre ++ [x]) [y] [] post :=
  ⟨Nat.one_pos, by rw [h.before]; simp, by rw [h.after]; simp⟩

/-- Of two instructions the first is removed. -/
theorem Procedure.Replaces.first (h : f.Replaces g pre [x, y] [y] post) : f.Replaces g pre [x] [] (y :: post) :=
  ⟨Nat.one_pos, by rw [h.before]; simp, by rw [h.after]; simp⟩

theorem simplifies_of_compareWithZero (hf : f.Tidy)
    (hr : f.Replaces g pre [⟨.loadImmediate value zero, why⟩, ⟨.compare comparison lhs rhs destination, why'⟩]
      new post)
    (h : Pattern.compareWithZero.replaceTwo? ⟨f.instructions, f.parameterIds⟩ ⟨.loadImmediate value zero, why⟩
      ⟨.compare comparison lhs rhs destination, why'⟩ = some new) : f.Simplifies g := by
  simp only [Pattern.replaceTwo?] at h
  split at h
  · rename_i hcond
    simp only [Bool.and_eq_true, Bool.or_eq_true] at hcond
    obtain ⟨⟨hzero, hsingle⟩, hsame⟩ := hcond
    obtain ⟨_, hu, hnew⟩ := Option.bind_eq_some_iff.mp h
    obtain ⟨_, htest, rfl⟩ := Option.map_eq_some_iff.mp hnew
    cases hright : rhs.same zero with
    | true =>
      rw [hright, if_pos rfl] at hu hr
      rw [hright] at htest
      have hother : lhs.id ≠ zero.id := by
        -- or else the comparison reads the temporary twice
        intro hleft
        have hi : f.instructions = pre ++ _ :: _ :: post := hr.before.trans (append_assoc ..)
        have hone := (reads_of_isSingleUse hi hsingle (.tail _ (.head _)) (same_iff.mp hright)).2
        simp [reads, hright, same_iff.mpr hleft] at hone
      exact .fuses hr (fusion_of_isSingleUse hf hr
        (.compareRight hzero (same_iff.mp hright) hother hu htest) hsingle)
    | false =>
      rw [hright, if_neg (by decide)] at hu hr
      rw [hright] at htest hsame
      have hleft : lhs.same zero = true := by simpa using hsame
      have hother : rhs.id ≠ zero.id := fun h => by
        rw [same_iff.mpr h] at hright
        cases hright
      exact .fuses hr (fusion_of_isSingleUse hf hr
        (.compareLeft hzero (same_iff.mp hleft) hother hu htest) hsingle)
  · cases h

theorem simplifies_of_replaceTwo? {pattern : Pattern} (hf : f.Tidy) (hr : f.Replaces g pre [x, y] new post)
    (h : pattern.replaceTwo? ⟨f.instructions, f.parameterIds⟩ x y = some new) : f.Simplifies g := by
  have hmem : ∀ i ∈ [x, y], i ∈ f.instructions := fun i => hr.mem_before
  unfold Pattern.replaceTwo? at h
  split at h
  · -- a move, and the move back
    split at h
    · rename_i hsame
      cases h
      rw [Bool.and_eq_true, same_iff, same_iff] at hsame
      exact .removes hr.second (.copyBack rfl rfl rfl hsame.1 hsame.2)
    · cases h
  · -- a constant that is moved on
    split at h
    · rename_i hcond
      cases h
      simp only [Bool.and_eq_true, decide_eq_true_eq] at hcond
      obtain ⟨⟨hsame, hsingle⟩, htype⟩ := hcond
      exact .fuses hr (fusion_of_isSingleUse hf hr
        (.forward rfl (same_iff.mp hsame).symm htype) hsingle)
    · cases h
  · -- a step, and the opposite step
    split at h
    · rename_i hcond
      cases h
      simp only [Bool.and_eq_true, decide_eq_true_eq] at hcond
      obtain ⟨hopposite, hsame⟩ := hcond
      have hid := same_iff.mp hsame
      refine .cancels hr ⟨rfl, rfl, hopposite, hid, hf.types _ ?_ _ ?_ hid⟩
      · exact Procedure.mem_mentioned (hmem _ (.head _)) (.head _)
      · exact Procedure.mem_mentioned (hmem _ (.tail _ (.head _))) (.head _)
    · cases h
  · exact simplifies_of_compareWithZero hf hr h
  · -- a test whether a difference is zero
    split at h
    · rename_i hcond
      cases h
      rw [Bool.and_eq_true] at hcond
      exact .fuses hr (fusion_of_isSingleUse hf hr (.subtract (same_iff.mp hcond.1).symm) hcond.2)
    · cases h
  · -- a result that is moved on
    split at h
    · rename_i temporary hplain
      split at h
      · rename_i hcond
        cases h
        simp only [Bool.and_eq_true, decide_eq_true_eq] at hcond
        obtain ⟨⟨hsame, hsingle⟩, htype⟩ := hcond
        exact .fuses hr (fusion_of_isSingleUse hf hr
          (.forward hplain (same_iff.mp hsame).symm htype) hsingle)
      · cases h
    · cases h
  · cases h
  · -- a copy that the next instruction reads
    rename_i hstep
    split at h
    · rename_i hcond
      cases h
      simp only [Bool.and_eq_true, Bool.not_eq_true', decide_eq_true_eq, any_eq_true] at hcond
      obtain ⟨⟨⟨hother, hsingle⟩, htype⟩, r, hread, hsame⟩ := hcond
      refine .fuses hr (fusion_of_isSingleUse hf hr (.propagate htype (fun h => ?_)
        ⟨r, hread, same_iff.mp hsame⟩ fun d r h => hstep d r h) hsingle)
      rw [same_iff.mpr h] at hother
      cases hother
    · cases h
  · -- a jump to the label that follows
    split at h
    · rename_i hname
      cases h
      exact .removes hr.first (.goto rfl ⟨_, _, rfl, by rw [hname]⟩)
    · cases h
  · -- code behind a jump
    split at h
    · cases h
    · rename_i hlabel
      cases h
      exact .removes hr.second (.unreachable rfl (Or.inl ⟨_, rfl⟩) (Bool.eq_false_iff.mpr hlabel))
  · -- code behind a return
    split at h
    · cases h
    · rename_i hlabel
      cases h
      exact .removes hr.second (.unreachable rfl (Or.inr ⟨_, rfl⟩) (Bool.eq_false_iff.mpr hlabel))
  · cases h

/-- Every step of simplification is one that may be taken. -/
theorem simplifies_of_step? (hf : f.Tidy)
    (h : step? f.parameterIds f.instructions = some (pattern, is)) : f.Simplifies { f with instructions := is } := by
  obtain ⟨_, _, _, _, hold, rfl, hm⟩ := matches_of_simplifyFirst? h
  cases hm with
  | one replaced => exact simplifies_of_replaceOne? hf ⟨Nat.one_pos, hold, rfl⟩ replaced
  | two replaced => exact simplifies_of_replaceTwo? hf ⟨Nat.two_pos, hold, rfl⟩ replaced

end

/-! ## Types of rewritten operations -/

namespace Operation

variable {p : Program} {returnType : Ty} {operation : Operation} {t target : Register} {φ : Register → Register}

theorem reads_mapWrites (φ : Register → Register) (op : Operation) : (op.mapWrites φ).reads = op.reads := by
  cases op <;> rfl

theorem writes_mapWrites (h : plainDestination? op = some t) : (op.mapWrites fun _ => target).writes = [target] := by
  cases op <;> try rfl
  case call callee args dest =>
    cases dest with
    | none => cases h
    | some => rfl
  all_goals cases h

theorem reads_mapReads (φ : Register → Register) (op : Operation) : (op.mapReads φ).reads = op.reads.map φ := by
  cases op <;> try rfl
  case ret reg => cases reg <;> rfl

theorem writes_mapReads (h : ∀ dir r, operation ≠ .step dir r) : (operation.mapReads φ).writes = operation.writes := by
  cases operation <;> try rfl
  case step dir r => exact absurd rfl (h dir r)

/-- Another destination of the same type is as good. -/
theorem Consistent.mapWrites (h : op.Consistent p returnType)
    (ht : plainDestination? op = some t) (htype : t.type = target.type) :
    (op.mapWrites fun _ => target).Consistent p returnType := by
  cases op with
  | call callee _ dest =>
    cases callee with
    | routine => trivial
    | function =>
      obtain ⟨g, hg, htypes, hcarried⟩ := h
      refine ⟨g, hg, htypes, ?_⟩
      cases dest with
      | none => exact hcarried
      | some =>
        cases ht
        exact ⟨htype ▸ hcarried.1, hcarried.2⟩
  | addressOf symbol =>
    cases ht
    cases symbol <;> simpa only [Operation.mapWrites, Consistent, ← htype] using h
  | step | label | goto | gotoIfFalse | ret | store | unknown => cases ht
  | _ =>
    cases ht
    simpa only [Operation.mapWrites, Consistent, ← htype] using h

/-- Other registers of the same types are as good to read. -/
theorem Consistent.mapReads (h : operation.Consistent p returnType) (htype : ∀ r ∈ operation.reads, (φ r).type = r.type)
    (hstep : ∀ dir r, operation ≠ .step dir r) : (operation.mapReads φ).Consistent p returnType := by
  cases operation with
  | step dir r => exact absurd rfl (hstep dir r)
  | call callee =>
    cases callee with
    | routine => trivial
    | function =>
      obtain ⟨g, hg, htypes, hcarried⟩ := h
      refine ⟨g, hg, ?_, hcarried⟩
      rw [map_map, ← htypes]
      exact map_congr_left htype
  | ret reg =>
    cases reg with
    | none => exact h
    | some r =>
      obtain ⟨hr, hvoid⟩ := h
      exact ⟨(htype r (.head _)).trans hr, hvoid⟩
  | loadImmediate | label | goto | gotoIfFalse | addressOf | unknown => exact h
  | _ =>
    simp only [reads, mem_cons, not_mem_nil, or_false, forall_eq_or_imp, forall_eq] at htype
    simpa only [mapReads, Consistent, htype] using h

end Operation

namespace Fuses

variable {p : Program} {returnType : Ty} {t : Register} {x y z : Operation}

theorem mentions (h : Fuses t x y z) : ∀ r ∈ z.mentions, r ∈ x.mentions ++ y.mentions := by
  intro r hr
  cases h with
  | @forward _ s _ dest =>
    rw [mentions, reads_mapWrites, writes_mapWrites dest] at hr
    simp only [mentions, reads, writes, mem_append, mem_cons,
      not_mem_nil, or_false] at hr ⊢
    tauto
  | propagate _ _ _ notStep =>
    rw [mentions, reads_mapReads, writes_mapReads notStep] at hr
    simp only [mentions, reads, writes, mem_append, mem_cons,
      not_mem_nil, or_false, mem_map] at hr ⊢
    rcases hr with ⟨s, hs, rfl⟩ | hr
    · split
      · exact Or.inl (Or.inl rfl)
      · exact Or.inr (Or.inl hs)
    · exact Or.inr (Or.inr hr)
  | compareRight | compareLeft | subtract =>
    simp only [mentions, reads, writes, mem_append, mem_cons,
      not_mem_nil, or_false] at hr ⊢
    tauto

theorem consistent (h : Fuses t x y z) (hx : x.Consistent p returnType) (hy : y.Consistent p returnType)
    (htypes : ∀ r ∈ y.reads, r.id = t.id → r.type = t.type) : z.Consistent p returnType := by
  cases h with
  | forward dest _ type => exact hx.mapWrites dest type
  | compareRight | compareLeft => exact hy.2
  | @subtract lhs rhs s _ negated => cases negated <;> exact ⟨hx.1.trans hx.2.symm, hy⟩
  | propagate type _ _ notStep =>
    refine hy.mapReads (fun r hr => ?_) notStep
    split
    · rename_i hsame
      rw [← type, htypes r hr (same_iff.mp hsame)]
    · rfl

/-- The one operation joins registers of one type if the two do. -/
theorem operands (h : Fuses t x y z)
    (hx : ∀ operator l r d, x = .binary operator l r d → l.type = d.type ∧ r.type = d.type)
    (hy : ∀ operator l r d, y = .binary operator l r d → l.type = d.type ∧ r.type = d.type)
    (htypes : ∀ r ∈ y.reads, r.id = t.id → r.type = t.type) :
    ∀ operator l r d, z = .binary operator l r d → l.type = d.type ∧ r.type = d.type := by
  intro _ l r d hz
  cases h with
  | forward dest _ type =>
    cases x with
    | binary =>
      cases dest
      cases hz
      exact type ▸ hx _ _ _ _ rfl
    | _ => cases hz
  | compareRight | compareLeft | subtract => cases hz
  | @propagate source _ type =>
    have hsame : ∀ s ∈ y.reads, (if s.same t then source else s).type = s.type := by
      intro s hs
      split
      · rename_i hid
        rw [← type, htypes s hs (same_iff.mp hid)]
      · rfl
    cases y with
    | binary _ l' r' =>
      cases hz
      rw [hsame l' (.head _), hsame r' (.tail _ (.head _))]
      exact hy _ _ _ _ rfl
    | _ => cases hz

end Fuses

/-! ## Simplified procedures -/

namespace Procedure

variable {p : Program} {f g : Procedure}

theorem Consistent.tidy (hf : f.Consistent p) : f.Tidy where
  labels := hf.labels
  named i hi hl := by
    have hc := hf.operations i hi
    rw [hl] at hc
    exact hc rfl
  types r hr s hs hid := by
    obtain ⟨i, hi, hr⟩ := mem_flatMap.mp hr
    obtain ⟨j, hj, hs⟩ := mem_flatMap.mp hs
    rw [hf.numbered.eq_of_id (hf.mentions i hi r hr) (hf.mentions j hj s hs) hid]
  operands i hi operator l r d hop := by
    have hc := hf.operations i hi
    rw [hop] at hc
    exact hc

section
variable {pre old new post : List Instruction}

theorem Replaces.mem (hr : f.Replaces g pre old new post) (hi : i ∈ g.instructions) : i ∈ f.instructions ∨ i ∈ new := by
  rw [hr.after] at hi
  rw [hr.before]
  simp only [mem_append] at hi ⊢
  tauto

/-- Labels are still different if none is added. -/
theorem Replaces.labels (hr : f.Replaces g pre old new post) (hlabels : ∀ i ∈ new, i.operation.isLabel = false)
    (hf : (f.instructions.filterMap (·.operation.labelName?)).Nodup) :
    (g.instructions.filterMap (·.operation.labelName?)).Nodup := by
  have hnew : new.filterMap (·.operation.labelName?) = [] := by
    rw [filterMap_eq_nil_iff]
    exact fun i hi => labelName?_of_not_isLabel (hlabels i hi)
  rw [hr.before, filterMap_append, filterMap_append] at hf
  rw [hr.after]
  simp only [filterMap_append, hnew, append_nil]
  exact hf.sublist ((sublist_append_left _ _).append (Sublist.refl _))

end

namespace Simplifies

section
variable (h : f.Simplifies g)
include h

theorem instructions_only : ∃ is, g = { f with instructions := is } := by
  cases h with
  | removes replaces | cancels replaces | fuses replaces => exact ⟨_, replaces.after⟩

theorem sameFace : f.SameFace g := by
  obtain ⟨_, rfl⟩ := h.instructions_only
  exact ⟨rfl, rfl, rfl⟩

/-- An instruction behind the step was there before, or two that were are fused to it. -/
theorem mem (hi : i ∈ g.instructions) :
    i ∈ f.instructions ∨ ∃ x ∈ f.instructions, ∃ y ∈ f.instructions, ∃ t,
      Fuses t x.operation y.operation i.operation ∧ ∀ r ∈ y.operation.reads, r.id = t.id → r.type = t.type := by
  cases h with
  | removes replaces | cancels replaces => exact (replaces.mem hi).imp_right nofun
  | @fuses pre _ x y z t replaces fusion =>
    refine (replaces.mem hi).imp_right fun hz => ?_
    obtain rfl := mem_singleton.mp hz
    have hy : y ∈ f.instructions := replaces.mem_before (.tail _ (.head _))
    exact ⟨x, replaces.mem_before (.head _), y, hy, t, fusion.fuses, fusion.types⟩

theorem mentioned : ∀ r ∈ g.mentioned, r ∈ f.mentioned := by
  intro r hr
  obtain ⟨i, hi, hr⟩ := mem_flatMap.mp hr
  rcases h.mem hi with hi | ⟨x, hx, y, hy, t, hfuses, -⟩
  · exact mem_mentioned hi hr
  · rcases mem_append.mp (hfuses.mentions r hr) with hr | hr
    · exact mem_mentioned hx hr
    · exact mem_mentioned hy hr

theorem tidy (hf : f.Tidy) : g.Tidy where
  labels := by
    cases h with
    | removes replaces | cancels replaces => exact replaces.labels (by simp) hf.labels
    | fuses replaces fusion =>
      exact replaces.labels (forall_mem_singleton.mpr fusion.fuses.isLabel_eq.2.2) hf.labels
  named i hi := by
    rcases h.mem hi with hi | ⟨x, -, y, -, t, hfuses, -⟩
    · exact hf.named i hi
    · intro hlabel
      have hnot := hfuses.isLabel_eq.2.2
      rw [hlabel] at hnot
      cases hnot
  types r hr s hs := hf.types r (h.mentioned r hr) s (h.mentioned s hs)
  operands i hi := by
    rcases h.mem hi with hi | ⟨x, hx, y, hy, t, hfuses, htypes⟩
    · exact hf.operands i hi
    · exact hfuses.operands (hf.operands x hx) (hf.operands y hy) htypes

/-- Registers of the table are all that is mentioned, before and behind the step. -/
theorem mentions (hf : ∀ i ∈ f.instructions, ∀ r ∈ i.operation.mentions, r ∈ f.registers)
    (i : Instruction) (hi : i ∈ g.instructions) (r : Register) (hr : r ∈ i.operation.mentions) : r ∈ f.registers := by
  obtain ⟨j, hj, hr⟩ := mem_flatMap.mp (h.mentioned r (mem_mentioned hi hr))
  exact hf j hj r hr

theorem consistent (hf : f.Consistent p) : g.Consistent p := by
  have hlabels := (h.tidy hf.tidy).labels
  have hmentions := h.mentions hf.mentions
  have hops : ∀ i ∈ g.instructions, i.operation.Consistent p f.returnType := by
    intro i hi
    rcases h.mem hi with hi | ⟨x, hx, y, hy, t, hfuses, htypes⟩
    · exact hf.operations i hi
    · exact hfuses.consistent (hf.operations x hx) (hf.operations y hy) htypes
  obtain ⟨_, rfl⟩ := h.instructions_only
  exact ⟨hf.numbered, hf.widths, hf.parameters, hf.distinct, hmentions, hlabels, hops⟩

/-- A simplified procedure runs like the one it comes from. -/
theorem simulated (hf : f.Tidy) : f.Simulated Activation.Orderly Activation.remaining g := by
  cases h with
  | removes replaces removable => exact ⟨_, (removable.window replaces hf.labels).simulation⟩
  | cancels replaces cancels => exact ⟨_, (cancels.window replaces).simulation⟩
  | fuses replaces fusion => exact ⟨_, (fusion.window replaces).simulation⟩

end

end Simplifies

theorem peephole_eq (h : f.peephole = .ok g) :
    g = { f with
      instructions := (simplify f.parameterIds f.instructions.length f.instructions).2 } := by
  unfold peephole peepholeTrace at h
  cases hk : f.instructions.forM (·.operation.known "reads") with
  | error =>
    rw [hk] at h
    cases h
  | ok =>
    rw [hk] at h
    cases h
    rfl

section
variable {Good : Procedure → Prop} (htidy : ∀ f, Good f → f.Tidy) (hgood : ∀ f g, f.Simplifies g → Good f → Good g)
include htidy hgood

/-- Simplification is a chain of steps that may be taken. -/
theorem simplifies_of_simplify (rounds : Nat) (hf : Good f) :
    Relation.ReflTransGen Simplifies f
      { f with instructions := (simplify f.parameterIds rounds f.instructions).2 } := by
  induction rounds generalizing f with
  | zero => exact .refl
  | succ _ ih =>
    unfold simplify
    split
    · exact .refl
    · rename_i pattern is hstep
      have hs := simplifies_of_step? (htidy f hf) hstep
      exact .head hs (ih (hgood _ _ hs hf))

theorem simplifies_of_peephole (hf : Good f) (h : f.peephole = .ok g) : Relation.ReflTransGen Simplifies f g := by
  rw [peephole_eq h]
  exact simplifies_of_simplify htidy hgood _ hf

end

end Procedure

/-- The peephole pass is right, whichever procedures it is applied to. -/
theorem Program.Preserves.of_simplifies {p : Program} (hp : p.Consistent)
    (h : p.Corresponds (Relation.ReflTransGen Procedure.Simplifies) q) : p.Preserves q :=
  .of_chain hp h (fun _ _ h => h.sameFace) (fun _ _ _ h hf => h.consistent hf)
    (fun _ _ _ h hf => h.simulated hf.tidy)

end Retarget
