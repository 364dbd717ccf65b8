import Retarget.Proofs.Ty.Range
import Retarget.Run.Arithmetic

/-!
# Arithmetic stays in range

A binary operation, a step or a conversion of values in range gives a value in range. On values in range a
step and the opposite step cancel each other, a difference is zero exactly for equal values, and a
conversion to the same type does nothing.
-/
namespace Retarget

open Checked Number Ty

theorem Checked.step_eq_ok {α : Type} {x} {a : α} : step x = .ok a ↔ x = .ok a := by
  cases x <;> simp [step]

namespace Ty

/-- A type that has bits to compute with. -/
def IsNumber (type : Ty) : Prop := ∃ bits, type.valueBits = .ok (some bits)

theorem isNumber_of_isNumeric {type : Ty} (h : type.isNumeric) : type.IsNumber := by
  cases type <;> first | exact ⟨_, rfl⟩ | cases h

theorem Holds.isRegister {type : Ty} (h : type.Holds n) : type.IsRegister := by
  cases type <;> first | exact h.1 | trivial

theorem Holds.isNumber {type : Ty} (h : type.Holds n) : type.IsNumber := by
  cases type <;> first | exact ⟨_, rfl⟩ | exact h.elim

theorem holds_zero {type : Ty} (hr : type.IsRegister) (hn : type.IsNumber) : type.Holds 0 := by
  match type with
  | .integer bits signed =>
    refine ⟨hr, ?_⟩
    rcases hr with rfl | rfl | rfl | rfl <;> cases signed <;> decide
  | .fixed e => cases e <;> decide
  | .boolean => exact Or.inl rfl
  | .pointer _ =>
    obtain ⟨_, hb⟩ := hn
    cases hb

theorem holds_neg_one {type : Ty} (hr : type.IsRegister) (hs : type.isSigned = .ok true) : type.Holds (-1) := by
  match type with
  | .integer bits signed =>
    cases hs
    refine ⟨hr, ?_⟩
    rcases hr with rfl | rfl | rfl | rfl <;> decide
  | .fixed e => cases e <;> decide

end Ty

/-! ## Binary operations -/

section
variable {operator : Operator} {type : Ty} {x y z : Number}

theorem shiftCount?_eq_some (h : shiftCount? bits count = some c) : c = count ∧ count.lt 0 = false := by
  unfold shiftCount? at h
  split at h
  · cases h
  · rename_i hlt
    cases h
    simp only [Bool.or_eq_true, not_or, Bool.not_eq_true] at hlt
    exact ⟨rfl, hlt.1⟩

/-- Only types with bits can be computed with. -/
theorem isNumber_of_evaluateBinary (h : evaluateBinary operator type x y = .ok z) : type.IsNumber := by
  unfold evaluateBinary at h
  cases hb : type.valueBits with
  | error => simp [hb, step, bind, Except.bind] at h
  | ok bits =>
    cases bits with
    | some bits => exact ⟨bits, hb⟩
    | none =>
      simp only [hb, step, bind, Except.bind] at h
      cases ht : type.text <;> simp [ht, throw, throwThe, MonadExceptOf.throw] at h

/-- A result is a wrapped number without a fraction, unless all bits were shifted out. -/
theorem evaluateBinary_cases (hx : x.IsWhole) (hy : y.IsWhole) (h : evaluateBinary operator type x y = .ok z) :
    (∃ w : Number, w.HasNoFraction ∧ type.wrap w = .ok z) ∨ z = .dyadic 0 0 ∨
      (z = .dyadic (-1) 0 ∧ type.isSigned = .ok true) := by
  obtain ⟨_, hb⟩ := isNumber_of_evaluateBinary h
  have hwrap : ∀ {w : Number}, w.HasNoFraction → (type.wrap w).step = .ok z →
      (∃ w : Number, w.HasNoFraction ∧ type.wrap w = .ok z) ∨ z = .dyadic 0 0 ∨
      (z = .dyadic (-1) 0 ∧ type.isSigned = .ok true) :=
    fun hw hz => Or.inl ⟨_, hw, step_eq_ok.mp hz⟩
  obtain ⟨a, rfl⟩ := hx
  obtain ⟨b, rfl⟩ := hy
  unfold evaluateBinary at h
  rw [hb] at h
  cases operator with
  | add => exact hwrap (add_hasNoFraction (hasNoFraction_dyadic a) (hasNoFraction_dyadic b)) h
  | subtract =>
    refine hwrap (w := (dyadic a 0).sub (.dyadic b 0)) ?_ h
    rw [sub_dyadic]
    exact round_hasNoFraction _
  | multiply =>
    simp only [step, bind, Except.bind] at h
    split at h
    · exact hwrap (floor_hasNoFraction _) h
    · refine hwrap ?_ h
      split
      · exact ofWord_hasNoFraction _
      · exact round_hasNoFraction _
  | divide =>
    simp only [step, bind, Except.bind, isZero_dyadic] at h
    split at h
    · cases h
    · exact hwrap (trunc_hasNoFraction _) h
  | modulo =>
    simp only [step, bind, Except.bind, isZero_dyadic] at h
    split at h
    · cases h
    · exact hwrap (rem_hasNoFraction (hasNoFraction_dyadic a) (hasNoFraction_dyadic b)) h
  | and | or | xor => exact hwrap (ofWord_hasNoFraction _) h
  | shiftLeft =>
    simp only [step, bind, Except.bind] at h
    split at h
    · cases h
      exact Or.inr (Or.inl rfl)
    · rename_i hc
      obtain ⟨rfl, hlt⟩ := shiftCount?_eq_some hc
      rw [zero_eq, lt_dyadic, decide_eq_false_iff_not, Int.not_lt] at hlt
      exact hwrap (mul_hasNoFraction (hasNoFraction_dyadic a) (exp2_hasNoFraction hlt)) h
  | shiftRight =>
    simp only [step, bind, Except.bind] at h
    split at h
    · cases hs : type.isSigned with
      | error => simp [hs] at h
      | ok signed =>
        simp only [hs] at h
        cases h
        cases signed with
        | false => exact Or.inr (Or.inl rfl)
        | true =>
          by_cases hneg : (dyadic a 0).lt 0
          · rw [hneg]
            exact Or.inr (Or.inr ⟨rfl, rfl⟩)
          · rw [Bool.not_eq_true] at hneg
            rw [hneg]
            exact Or.inr (Or.inl rfl)
    · exact hwrap (floor_hasNoFraction _) h
  | inherited | other => cases h

/-- A binary operation gives a value that a register of its type can hold. -/
theorem evaluateBinary_holds (ht : type.IsRegister) (hx : x.IsWhole) (hy : y.IsWhole)
    (h : evaluateBinary operator type x y = .ok z) : ∃ n, z = .dyadic n 0 ∧ type.Holds n := by
  rcases evaluateBinary_cases hx hy h with ⟨w, hw, hz⟩ | rfl | ⟨rfl, hs⟩
  · exact wrap_holds ht hw hz
  · exact ⟨0, rfl, holds_zero ht (isNumber_of_evaluateBinary h)⟩
  · exact ⟨-1, rfl, holds_neg_one ht hs⟩

theorem evaluateBinary_add (hn : type.IsNumber) (x y : Number) :
    evaluateBinary .add type x y = (type.wrap (x.add y)).step := by
  obtain ⟨_, hb⟩ := hn
  unfold evaluateBinary
  rw [hb]
  rfl

theorem evaluateBinary_subtract (hn : type.IsNumber) (x y : Number) :
    evaluateBinary .subtract type x y = (type.wrap (x.sub y)).step := by
  obtain ⟨_, hb⟩ := hn
  unfold evaluateBinary
  rw [hb]
  rfl

/-- The values of the type are the integers of a width, and wrapping is reduction to them. -/
structure Ty.WrapsAt (type : Ty) (bits : Nat) (signed : Bool) : Prop where
  isWidth : IsWidth bits
  holds_iff : ∀ n, type.Holds n ↔ InWidth bits signed n
  wrap_eq : ∀ n, type.wrap (.dyadic n 0) = .ok (.dyadic (wrapInt bits signed n) 0)

/-- Integers and fixed-point numbers wrap around at their width. -/
theorem Ty.wrapsAt_of_isNumeric (ht : type.IsRegister) (hn : type.isNumeric) :
    ∃ bits signed, type.valueBits = .ok (some bits) ∧ type.isSigned = .ok signed ∧ type.WrapsAt bits signed := by
  match type with
  | .integer bits signed =>
    exact ⟨bits, signed, rfl, rfl, ht, fun n => ⟨fun h => h.2, fun h => ⟨ht, h⟩⟩,
      fun n => by rw [wrap_integer, wrapTo_dyadic ht]⟩
  | .fixed e =>
    exact ⟨e.usedBits, true, rfl, rfl, e.isWidth_usedBits, fun n => Iff.rfl,
      fun n => by rw [wrap_fixed, wrapTo_dyadic e.isWidth_usedBits]⟩
  | .boolean => cases hn

theorem Ty.one_le (type : Ty) : type.one ≤ 65536 := by
  match type with
  | .fixed e => cases e <;> decide
  | .integer .. | .boolean | .void | .string | .pointer _ | .array .. | .parameter _ | .unknown _ =>
    exact (show twoTo 0 ≤ 65536 by decide)

section
variable {bits : Nat} {signed : Bool} {n : Int}

theorem evaluateBinary_add_one (hw : type.WrapsAt bits signed) (h : type.Holds n) :
    evaluateBinary .add type (.dyadic n 0) (.ofNat type.one) =
      .ok (.dyadic (wrapInt bits signed (n + type.one)) 0) := by
  have hsize := h.natAbs_le
  have hone := type.one_le
  rw [twoTo_32] at hsize
  rw [evaluateBinary_add h.isNumber, ofNat, add_dyadic,
    round_whole (by rw [twoTo_53]; omega), hw.wrap_eq]
  rfl

theorem evaluateBinary_subtract_one (hw : type.WrapsAt bits signed) (h : type.Holds n) :
    evaluateBinary .subtract type (.dyadic n 0) (.ofNat type.one) =
      .ok (.dyadic (wrapInt bits signed (n - type.one)) 0) := by
  have hsize := h.natAbs_le
  have hone := type.one_le
  rw [twoTo_32] at hsize
  rw [evaluateBinary_subtract h.isNumber, ofNat, sub_dyadic,
    round_whole (by rw [twoTo_53]; omega), hw.wrap_eq]
  rfl

theorem Ty.WrapsAt.holds_wrapInt (hw : type.WrapsAt bits signed) (k : Int) : type.Holds (wrapInt bits signed k) :=
  (hw.holds_iff _).mpr (wrapInt_inWidth hw.isWidth k)

end

/-- Stepping up and then down again changes nothing. -/
theorem evaluateBinary_add_subtract (hn : type.isNumeric) (h : type.Holds n)
    (hx : evaluateBinary .add type (.dyadic n 0) (.ofNat type.one) = .ok x) :
    evaluateBinary .subtract type x (.ofNat type.one) = .ok (.dyadic n 0) := by
  obtain ⟨_, _, -, -, hw⟩ := wrapsAt_of_isNumeric h.isRegister hn
  rw [evaluateBinary_add_one hw h] at hx
  cases hx
  rw [evaluateBinary_subtract_one hw (hw.holds_wrapInt _), Int.sub_eq_add_neg,
    wrapInt_add_wrapInt hw.isWidth, Int.add_neg_cancel_right,
    wrapInt_of_inWidth hw.isWidth ((hw.holds_iff n).mp h)]

theorem evaluateBinary_subtract_add (hn : type.isNumeric) (h : type.Holds n)
    (hx : evaluateBinary .subtract type (.dyadic n 0) (.ofNat type.one) = .ok x) :
    evaluateBinary .add type x (.ofNat type.one) = .ok (.dyadic n 0) := by
  obtain ⟨_, _, -, -, hw⟩ := wrapsAt_of_isNumeric h.isRegister hn
  rw [evaluateBinary_subtract_one hw h] at hx
  cases hx
  rw [evaluateBinary_add_one hw (hw.holds_wrapInt _), wrapInt_add_wrapInt hw.isWidth,
    Int.sub_add_cancel, wrapInt_of_inWidth hw.isWidth ((hw.holds_iff n).mp h)]

/-- A difference is zero exactly if its operands are equal. -/
theorem isZero_evaluateBinary_subtract {a b : Int} (ha : type.Holds a) (hb : type.Holds b)
    (h : evaluateBinary .subtract type (.dyadic a 0) (.dyadic b 0) = .ok z) : z.isZero = decide (a = b) := by
  have hsa := ha.natAbs_le
  have hsb := hb.natAbs_le
  rw [twoTo_32] at hsa hsb
  rw [evaluateBinary_subtract ha.isNumber, sub_dyadic,
    round_whole (by rw [twoTo_53]; omega)] at h
  rw [step_eq_ok] at h
  by_cases hn : type.isNumeric
  · obtain ⟨_, _, -, -, hw⟩ := wrapsAt_of_isNumeric ha.isRegister hn
    rw [hw.wrap_eq] at h
    cases h
    have := wrapInt_sub_eq_zero hw.isWidth ((hw.holds_iff a).mp ha) ((hw.holds_iff b).mp hb)
    rw [isZero_dyadic, decide_eq_decide]
    exact this
  · match type with
    | .boolean =>
      rw [wrap_boolean, isZero_dyadic] at h
      cases h
      by_cases hab : a = b
      · simp [hab, zero_eq, isZero_dyadic]
      · have : a - b ≠ 0 := by omega
        simp [hab, this, one_eq, isZero_dyadic]
    | .integer .. | .fixed _ => exact absurd rfl hn

end

/-! ## Conversions -/

section
variable {source target : Ty} {x y : Number}

theorem Number.twoPow_hasNoFraction (n : Nat) : (twoPow n).HasNoFraction := by
  unfold twoPow
  split
  · exact hasNoFraction_dyadic _
  · exact hasNoFraction_infinite _

/-- A conversion gives a value that a register of the target's type can hold. -/
theorem evaluateConversion_holds (ht : target.IsRegister) (hx : x.IsWhole)
    (h : evaluateConversion x source target = .ok y) : ∃ n, y = .dyadic n 0 ∧ target.Holds n := by
  unfold evaluateConversion at h
  split at h
  · rename_i hb
    subst hb
    cases h
    by_cases hz : x.isZero
    · exact ⟨0, by rw [if_pos hz]; rfl, Or.inl rfl⟩
    · exact ⟨1, by rw [if_neg hz]; rfl, Or.inr rfl⟩
  · simp only [bind, Except.bind] at h
    split at h
    · cases h
    · split at h
      · exact wrap_holds ht (mul_hasNoFraction hx.hasNoFraction (twoPow_hasNoFraction _)) h
      · exact wrap_holds ht (floor_hasNoFraction _) h

end

end Retarget
