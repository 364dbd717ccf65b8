import Retarget.Proofs.Code.Consistent
import Retarget.Proofs.Run.Execution

/-!
# Labels

A jump leads to the first label of a name. Where labels have names of their own, that is the only one. New
names are made with numbers in them, and two such names differ if their numbers do.
-/
namespace Retarget

open List String

/-! ## Names with numbers -/

theorem eq_of_toString {k l : Nat} (h : toString k = toString l) : k = l := by
  have hdigits : Nat.toDigits 10 k = Nat.toDigits 10 l := by simpa using congrArg toList h
  have hvalue := congrArg (Nat.ofDigitChars 10 · 0) hdigits
  simpa only [Nat.ofDigitChars_ten_toDigits] using hvalue

/-- Names with the same beginning differ by their numbers. -/
theorem eq_of_append_toString {base : String} {k l : Nat} (h : base ++ toString k = base ++ toString l) : k = l := by
  refine eq_of_toString (ext ?_)
  have hlist := congrArg toList h
  rw [toList_append, toList_append] at hlist
  exact append_cancel_left hlist

theorem toList_numbered (kind : String) (n : Nat) :
    s!"{kind}_{n}".toList = kind.toList ++ '_' :: Nat.toDigits 10 n := by
  simp [toList_append, toString]

theorem ne_underscore_of_mem_toDigits : ∀ c ∈ (Nat.toDigits 10 n).reverse, (c != '_') = true := by
  intro c hc
  have hdigit := Nat.isDigit_of_mem_toDigits (by decide) (by decide) (mem_reverse.mp hc)
  simp only [bne_iff_ne, ne_eq]
  rintro rfl
  exact absurd hdigit (by decide)

/-- Read from its end, a name with a number has the digits before the first line. -/
theorem takeWhile_numbered (kind : String) (n : Nat) :
    s!"{kind}_{n}".toList.reverse.takeWhile (· != '_') = (Nat.toDigits 10 n).reverse := by
  rw [toList_numbered]
  simp only [reverse_append, reverse_cons, List.append_assoc, singleton_append]
  rw [takeWhile_append_of_pos ne_underscore_of_mem_toDigits]
  simp

theorem dropWhile_numbered (kind : String) (n : Nat) :
    s!"{kind}_{n}".toList.reverse.dropWhile (· != '_') = '_' :: kind.toList.reverse := by
  rw [toList_numbered]
  simp only [reverse_append, reverse_cons, List.append_assoc, singleton_append]
  rw [dropWhile_append_of_pos ne_underscore_of_mem_toDigits]
  simp

/-- Names of different beginnings differ by the numbers at their ends, too: digits stand behind the last line. -/
theorem eq_of_numbered {kind other : String} {k l : Nat} (h : s!"{kind}_{k}" = s!"{other}_{l}") : k = l := by
  have hsame : Nat.toDigits 10 k = Nat.toDigits 10 l := by
    rw [← reverse_inj, ← takeWhile_numbered kind, h, takeWhile_numbered]
  have hvalue := congrArg (Nat.ofDigitChars 10 · 0) hsame
  simpa only [Nat.ofDigitChars_ten_toDigits] using hvalue

/-! ## Places of labels -/

theorem Operation.labels_eq_true {op : Operation} : op.labels name = true ↔ op.labelName? = some name := by
  cases op <;> simp [labels, labelName?]

theorem Operation.labels_of_not_isLabel {op : Operation} (h : op.isLabel = false)
    (name : String) : op.labels name = false := by
  cases op <;> first | rfl | cases h

theorem Operation.eq_label {op : Operation} (h : op.labelName? = some name) : op = .label name := by
  cases op <;> cases h
  rfl

theorem Operation.labelName?_of_not_isLabel {op : Operation} (h : op.isLabel = false) : op.labelName? = none := by
  cases op <;> first | rfl | cases h

theorem exists_labelPlace? {f : Procedure} (hi : i ∈ f.instructions)
    (hlabel : i.operation = .label name) : ∃ k, f.labelPlace? name = some k := by
  cases hk : f.labelPlace? name with
  | some k => exact ⟨k, rfl⟩
  | none =>
    have hnone := findIdx?_eq_none_iff.mp hk i hi
    rw [hlabel, Operation.labels_eq_true.mpr rfl] at hnone
    cases hnone

/-- A label that has its name for itself is where jumps to it lead. -/
theorem labelPlace?_of_nodup {f : Procedure} (hd : (f.instructions.filterMap (·.operation.labelName?)).Nodup)
    (hk : f.instructions[k]? = some i) (hi : i.operation = .label name) :
    f.labelPlace? name = some k := by
  unfold Procedure.labelPlace?
  generalize f.instructions = is at hd hk
  induction is generalizing k with
  | nil => cases hk
  | cons first _ ih =>
    rw [findIdx?_cons]
    cases k with
    | zero =>
      cases hk
      rw [hi, if_pos (by simp [Operation.labels])]
    | succ =>
      rw [getElem?_cons_succ] at hk
      have hfirst : first.operation.labels name = false := by
        cases hl : first.operation.labels name with
        | false => rfl
        | true =>
          simp only [filterMap_cons, Operation.labels_eq_true.mp hl, nodup_cons] at hd
          refine absurd (mem_filterMap.mpr ⟨i, mem_of_getElem? hk, ?_⟩) hd.1
          rw [hi]
          rfl
      rw [hfirst, if_neg (by decide), ih ?_ hk]
      · rfl
      · cases hl : first.operation.labelName? with
        | none => simpa only [filterMap_cons, hl] using hd
        | some =>
          simp only [filterMap_cons, hl] at hd
          exact (nodup_cons.mp hd).2

end Retarget
