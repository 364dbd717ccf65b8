import Retarget.Proofs.Emit.Mark
import Retarget.Proofs.Emit.Session
import Retarget.Emit.Line

/-!
# Labels that code defines

Most of what an emitter writes defines no labels. What does takes the names of the intermediate code, each where it
stands, and names with numbers that were not given out before. So the code of a procedure has no mark twice if the
intermediate code has no label twice.
-/
namespace Retarget

open List

/-! ## Lines -/

namespace Line

variable {ι : Type}

/-- The label that a line defines, for a way to read lines that are written as they are. -/
def defines? (equated? : String → Option String) : Line ι → Option String
  | .label name => some name
  | .raw text => equated? text
  | .code _ _ | .unknown _ => none

def labels (equated? : String → Option String) (lines : List (Line ι)) : List String :=
  lines.filterMap (defines? equated?)

/-- The lines are instructions and nothing else. -/
def ArePlain (lines : List (Line ι)) : Prop := ∀ line ∈ lines, ∃ i why, line = .code i why

variable {equated? : String → Option String} {lines rest : List (Line ι)}

@[simp] theorem labels_nil : labels equated? ([] : List (Line ι)) = [] := rfl

@[simp] theorem labels_append : labels equated? (lines ++ rest) = labels equated? lines ++ labels equated? rest :=
  filterMap_append

@[simp] theorem labels_label : labels equated? (.label name :: rest) = name :: labels equated? rest :=
  rfl

@[simp] theorem labels_code : labels equated? (.code i why :: rest) = labels equated? rest := rfl

@[simp] theorem arePlain_nil : ArePlain ([] : List (Line ι)) := forall_mem_nil _

@[simp] theorem arePlain_code : ArePlain (.code i why :: rest) ↔ ArePlain rest := by
  simp [ArePlain]

@[simp] theorem arePlain_append : ArePlain (lines ++ rest) ↔ ArePlain lines ∧ ArePlain rest :=
  forall_mem_append

@[simp] theorem arePlain_map {is : List ι} : ArePlain (is.map .plain) :=
  forall_mem_map.mpr fun i _ => ⟨i, "", rfl⟩

theorem arePlain_flatMap {α : Type} {l : List α} {f : α → List (Line ι)} (h : ∀ a ∈ l, ArePlain (f a)) :
    ArePlain (l.flatMap f) := by
  intro line hline
  obtain ⟨a, ha, hmem⟩ := mem_flatMap.mp hline
  exact h a ha line hmem

theorem arePlain_flatten {parts : List (List (Line ι))} (h : ∀ part ∈ parts, ArePlain part) :
    ArePlain parts.flatten := by
  intro line hline
  obtain ⟨part, hpart, hmem⟩ := mem_flatten.mp hline
  exact h part hpart line hmem

theorem ArePlain.labels_eq (h : ArePlain lines) : labels equated? lines = [] := by
  refine filterMap_eq_nil_iff.mpr fun line hline => ?_
  obtain ⟨i, _, rfl⟩ := h line hline
  rfl

@[simp] theorem labels_withWhy : labels equated? (withWhy why lines) = labels equated? lines := by
  fun_induction withWhy why lines with
  | case1 => rfl
  | case2 => rfl
  | case3 line rest _ ih =>
    rw [← singleton_append, labels_append, ih, ← labels_append]
    rfl

end Line

/-! ## Emissions that define no labels -/

namespace Emit

variable {α β : Type} {P : α → Prop} {Q : β → Prop}

/-- The emission gives out no numbers, and what it gives is as stated. -/
def Quiet (x : Emit α) (P : α → Prop) : Prop := ∀ ⦃s a s'⦄, Gives x s a s' → s'.numbers = s.numbers ∧ P a

abbrev Silent (x : Emit α) : Prop := x.Quiet fun _ => True

abbrev Plain {ι : Type} (x : Emit (List (Line ι))) : Prop := x.Quiet Line.ArePlain

theorem Quiet.bind {x} {f : α → Emit β} (hx : x.Quiet P) (hf : ∀ a, P a → (f a).Quiet Q) : (x >>= f).Quiet Q := by
  intro s b _ h
  obtain ⟨a, t, ha, hb⟩ := gives_bind.mp h
  obtain ⟨hnumbers, hP⟩ := hx ha
  obtain ⟨hnumbers', hQ⟩ := hf a hP hb
  exact ⟨hnumbers'.trans hnumbers, hQ⟩

theorem Quiet.mono {P' : α → Prop} {x : Emit α} (hx : x.Quiet P) (h : ∀ a, P a → P' a) : x.Quiet P' :=
  fun _ _ _ hgives => (hx hgives).imp_right (h _)

theorem quiet_pure (h : P a) : (pure a : Emit α).Quiet P := by
  intro s b _ hgives
  obtain ⟨rfl, rfl⟩ := gives_pure.mp hgives
  exact ⟨rfl, h⟩

theorem quiet_throw : (throw halt : Emit α).Quiet P := fun _ _ _ h => absurd h gives_throw

theorem quiet_refuse : (refuse message : Emit α).Quiet P := quiet_throw

theorem quiet_check : (check x).Quiet (x = .ok ·) := by
  intro s a _ h
  obtain ⟨hx, rfl⟩ := gives_check.mp h
  exact ⟨rfl, hx⟩

theorem quiet_useExternal : (useExternal name).Silent := by
  intro s _ _ h
  obtain ⟨-, rfl⟩ := gives_useExternal.mp h
  exact ⟨rfl, trivial⟩

theorem Quiet.ite {c : Prop} [Decidable c] {x y : Emit α} (hx : x.Quiet P) (hy : y.Quiet P) :
    (if c then x else y).Quiet P := by
  split
  · exact hx
  · exact hy

theorem Quiet.mapM {f : β → Emit α} {l : List β} (h : ∀ b ∈ l, (f b).Quiet P) :
    (l.mapM f).Quiet fun as => ∀ a ∈ as, P a := by
  induction l with
  | nil => exact quiet_pure (forall_mem_nil _)
  | cons b _ ih =>
    rw [mapM_cons]
    rw [forall_mem_cons] at h
    exact h.1.bind fun a ha => (ih h.2).bind fun as has => quiet_pure (forall_mem_cons.mpr ⟨ha, has⟩)

end Emit

/-! ## Emissions that define labels -/

namespace Mark

/-- The marks are names of the code or have numbers from a range, and none is there twice. -/
structure Covers (names : List String) (low high : Nat) (marks : List Mark) : Prop where
  low_le_high : low ≤ high
  nodup : marks.Nodup
  mem : ∀ m ∈ marks, (∃ name ∈ names, m = .own name) ∨
    ∃ kind ∈ madeKinds, ∃ n, m = .made kind n ∧ low < n ∧ n ≤ high

variable {names names' : List String} {low middle high : Nat} {marks marks' : List Mark}

theorem covers_nil (names : List String) (low : Nat) : Covers names low low [] where
  low_le_high := le_refl low
  nodup := nodup_nil
  mem := forall_mem_nil _

theorem covers_own (name : String) (low : Nat) : Covers [name] low low [.own name] where
  low_le_high := le_refl low
  nodup := nodup_singleton _
  mem := forall_mem_singleton.mpr (Or.inl ⟨name, mem_singleton_self _, rfl⟩)

theorem covers_made (hkind : kind ∈ madeKinds) (low : Nat) : Covers [] low (low + 1) [.made kind (low + 1)] where
  low_le_high := Nat.le_succ low
  nodup := nodup_singleton _
  mem := forall_mem_singleton.mpr (Or.inr ⟨kind, hkind, low + 1, rfl, Nat.lt_succ_self low, le_refl _⟩)

/-- What comes later has other names and higher numbers. -/
theorem Covers.append (h : Covers names low middle marks) (h' : Covers names' middle high marks')
    (hnames : names.Disjoint names') : Covers (names ++ names') low high (marks ++ marks') where
  low_le_high := h.low_le_high.trans h'.low_le_high
  nodup := by
    refine nodup_append.mpr ⟨h.nodup, h'.nodup, ?_⟩
    rintro m hm _ hm' rfl
    obtain ⟨_, hname, rfl⟩ | ⟨_, -, n, rfl, -, hn⟩ := h.mem m hm
    · obtain ⟨_, hname', heq⟩ | ⟨_, -, _, heq, -⟩ := h'.mem _ hm'
      · cases heq
        exact hnames hname hname'
      · cases heq
    · obtain ⟨_, -, heq⟩ | ⟨_, -, _, heq, hn', -⟩ := h'.mem _ hm'
      · cases heq
      · -- numbers of the first part end at `middle`, and those of the second start behind it
        cases heq
        omega
  mem := by
    have hle := h.low_le_high
    have hle' := h'.low_le_high
    intro m hm
    rcases mem_append.mp hm with hm | hm
    · obtain ⟨name, hname, rfl⟩ | ⟨kind, hkind, n, rfl, hn, hn'⟩ := h.mem m hm
      · exact Or.inl ⟨name, mem_append_left _ hname, rfl⟩
      · exact Or.inr ⟨kind, hkind, n, rfl, hn, hn'.trans hle'⟩
    · obtain ⟨name, hname, rfl⟩ | ⟨kind, hkind, n, rfl, hn, hn'⟩ := h'.mem m hm
      · exact Or.inl ⟨name, mem_append_right _ hname, rfl⟩
      · exact Or.inr ⟨kind, hkind, n, rfl, hle.trans_lt hn, hn'⟩

end Mark

namespace Emit

variable {α ι : Type} {P : α → Prop} {symbol : String} {names names' : List String} {x y : Emit (List (Line ι))}

/-- The labels that the emission defines are marks of the symbol: names of the code, and names that it makes. -/
def Marks (symbol : String) (names : List String) (x : Emit (List (Line ι))) : Prop :=
  ∀ ⦃s lines s'⦄, Gives x s lines s' → ∃ marks, Mark.Covers names s.numbers s'.numbers marks ∧
    ∀ equated?, Line.labels equated? lines = marks.map (·.text symbol)

theorem Quiet.marks (h : x.Plain) : x.Marks symbol [] := by
  intro s _ _ hgives
  obtain ⟨hnumbers, hplain⟩ := h hgives
  refine ⟨[], ?_, fun equated? => hplain.labels_eq⟩
  rw [hnumbers]
  exact Mark.covers_nil [] s.numbers

theorem marks_label : Marks symbol [name] (pure [.label s!"{symbol}_{name}"] : Emit (List (Line ι))) := by
  intro s _ s' hgives
  obtain ⟨rfl, rfl⟩ := gives_pure.mp hgives
  exact ⟨[.own name], Mark.covers_own name s'.numbers, fun equated? => rfl⟩

/-- What goes before makes no difference if it gives out no numbers. -/
theorem Quiet.bind_marks {y} {f : α → Emit (List (Line ι))} (hy : y.Quiet P)
    (hf : ∀ a, P a → (f a).Marks symbol names) :
    (y >>= f).Marks symbol names := by
  intro s _ _ hgives
  obtain ⟨a, t, ha, hlines⟩ := gives_bind.mp hgives
  obtain ⟨hnumbers, hP⟩ := hy ha
  rw [← hnumbers]
  exact hf a hP hlines

/-- Neither does what comes behind if it adds no labels. -/
theorem Marks.bind {f : List (Line ι) → Emit (List (Line ι))} (hx : x.Marks symbol names)
    (hf : ∀ lines, (f lines).Quiet fun all => ∀ equated?, Line.labels equated? all = Line.labels equated? lines) :
    (x >>= f).Marks symbol names := by
  intro s _ _ hgives
  obtain ⟨lines, t, hlines, hall⟩ := gives_bind.mp hgives
  obtain ⟨hnumbers, hsame⟩ := hf lines hall
  obtain ⟨marks, hmarks, hlabels⟩ := hx hlines
  rw [hnumbers]
  exact ⟨marks, hmarks, fun equated? => (hsame equated?).trans (hlabels equated?)⟩

/-- The code of one instruction, with its note, before that of others. -/
theorem Marks.cons {i : Instruction} {rest} (hd : ((i :: rest).filterMap (·.operation.labelName?)).Nodup)
    (hx : x.Marks symbol i.operation.labelName?.toList)
    (hy : y.Marks symbol (rest.filterMap (·.operation.labelName?))) :
    Marks symbol ((i :: rest).filterMap (·.operation.labelName?)) (do
      let lines ← x
      return Line.withWhy i.why lines ++ (← y)) := by
  have hnames : (i :: rest).filterMap (·.operation.labelName?) =
      i.operation.labelName?.toList ++ rest.filterMap (·.operation.labelName?) := by
    rw [filterMap_cons]
    cases i.operation.labelName? <;> rfl
  rw [hnames] at hd ⊢
  intro s _ _ hgives
  obtain ⟨_, t, hlines, hrest⟩ := gives_bind.mp hgives
  obtain ⟨_, u, hothers, hall⟩ := gives_bind.mp hrest
  obtain ⟨rfl, rfl⟩ := gives_pure.mp hall
  obtain ⟨marks, hmarks, hlabels⟩ := hx hlines
  obtain ⟨marks', hmarks', hlabels'⟩ := hy hothers
  refine ⟨marks ++ marks', hmarks.append hmarks' (disjoint_of_nodup_append hd), fun equated? => ?_⟩
  rw [Line.labels_append, Line.labels_withWhy, hlabels, hlabels', map_append]

/-- The code of instructions that are selected one after the other. -/
theorem marks_selectEach {select : Operation → Emit (List (Line ι))}
    (hselect : ∀ op, (select op).Marks symbol op.labelName?.toList) {instrs}
    (hd : (instrs.filterMap (·.operation.labelName?)).Nodup) :
    (selectEach select instrs).Marks symbol (instrs.filterMap (·.operation.labelName?)) := by
  induction instrs with
  | nil => exact Quiet.marks (quiet_pure (by simp [*]))
  | cons i rest ih =>
    refine .cons hd (hselect i.operation) (ih (hd.sublist ?_))
    exact (sublist_cons_self i rest).filterMap _

end Emit

/-! ## Procedures -/

/-- Every name that a label of the procedure is made from is there once. -/
structure Procedure.HasDistinctNames (p : Procedure) : Prop where
  labels : (p.instructions.filterMap (·.operation.labelName?)).Nodup
  names : ∀ name ∈ p.instructions.filterMap (·.operation.labelName?), Mark.IsCodeName name
  parameters : (p.parameters.map (·.name)).Nodup
  registers : p.registers.IsNumbered

namespace Mark

/-- The labels are those of marks of the symbol, none of them twice. -/
def AreLabels (symbol : String) (labels : List String) : Prop :=
  ∃ marks : List Mark, marks.Nodup ∧ (∀ m ∈ marks, m.IsProper) ∧ labels = marks.map (·.text symbol)

variable {symbol : String} {labels : List String}

theorem AreLabels.nodup (h : AreLabels symbol labels) : labels.Nodup := by
  obtain ⟨_, hd, hproper, rfl⟩ := h
  exact hd.map_on fun m hm m' hm' htext => (hproper m hm).eq_of_text (hproper m' hm') htext

/-- The label is the symbol, or goes on behind it with an underscore. -/
def Continues (symbol label : String) : Prop := label = symbol ∨ symbol.toList ++ ['_'] <+: label.toList

instance (symbol label : String) : Decidable (Continues symbol label) := inferInstanceAs (Decidable (_ ∨ _))

theorem continues_text (symbol : String) (m : Mark) : Continues symbol (m.text symbol) := by
  unfold text
  cases hname : m.name? with
  | none => exact Or.inl rfl
  | some name => exact Or.inr ⟨name.toList, by simp [toString]⟩

theorem AreLabels.continues (h : AreLabels symbol labels) : ∀ label ∈ labels, Continues symbol label := by
  obtain ⟨_, -, -, rfl⟩ := h
  exact forall_mem_map.mpr fun m _ => continues_text symbol m

/-- What goes on behind two symbols has one of them behind the other. -/
theorem Continues.or_of_common (ha : Continues a label) (hb : Continues b label) : Continues a b ∨ Continues b a := by
  rcases ha with rfl | ha
  · exact Or.inr hb
  rcases hb with rfl | hb
  · exact Or.inl (Or.inr ha)
  have ha' : a.toList <+: label.toList := (prefix_append _ _).trans ha
  have hb' : b.toList <+: label.toList := (prefix_append _ _).trans hb
  -- both start the label, so the shorter one and its underscore start the longer one
  rcases Nat.lt_trichotomy a.toList.length b.toList.length with hlt | heq | hgt
  · exact Or.inl (Or.inr (prefix_of_prefix_length_le ha hb' (by rw [length_append]; exact hlt)))
  · have hstart := prefix_of_prefix_length_le ha' hb' heq.le
    exact Or.inl (Or.inl (String.ext (hstart.eq_of_length heq).symm))
  · exact Or.inr (Or.inr (prefix_of_prefix_length_le hb ha' (by rw [length_append]; exact hgt)))

/-- Whether the mark is of the code between entry and exit. -/
def isInner : Mark → Bool
  | .own _ | .made _ _ => true
  | .entry | .exit | .load _ | .operand _ | .home _ => false

section
variable (h : Covers names low high marks)
include h

theorem Covers.isInner : ∀ m ∈ marks, m.isInner = true := by
  intro m hm
  obtain ⟨_, -, rfl⟩ | ⟨_, -, n, rfl, -⟩ := h.mem m hm <;> rfl

theorem Covers.isProper
    (hnames : ∀ name ∈ names, IsCodeName name) : ∀ m ∈ marks, m.IsProper := by
  intro m hm
  obtain ⟨name, hname, rfl⟩ | ⟨_, hkind, n, rfl, -⟩ := h.mem m hm
  · exact hnames name hname
  · exact hkind

/-- Code of a procedure between marks of other sorts. -/
theorem Covers.areLabels
    (hnames : ∀ name ∈ names, IsCodeName name) (symbol : String) (front back : List Mark) (hd : (front ++ back).Nodup)
    (houter : ∀ m ∈ front ++ back, m.IsProper ∧ m.isInner = false) :
    AreLabels symbol ((front ++ marks ++ back).map (·.text symbol)) := by
  -- marks of the code are of other sorts than those around it, wherever these stand
  have hperm : (front ++ marks ++ back).Perm (front ++ back ++ marks) := by
    rw [append_assoc, append_assoc]
    exact perm_append_comm.append_left front
  refine ⟨_, hperm.nodup_iff.mpr (nodup_append.mpr ⟨hd, h.nodup, ?_⟩), fun m hm => ?_, rfl⟩
  · rintro m hm _ hm' rfl
    cases (houter m hm).2.symm.trans (h.isInner m hm')
  · rcases mem_append.mp (hperm.mem_iff.mp hm) with hm | hm
    · exact (houter m hm).1
    · exact h.isProper hnames m hm

end

end Mark

end Retarget
