import Retarget.Number.Power

/-!
# Whole numbers

Whole numbers up to `2 ^ 53` in size are kept exactly, so sums and differences of register values are
integer sums and differences. No operation on whole numbers leads to a fraction, except division, whose
result is cut off wherever it is used; an operation that goes past the greatest double gives an infinity.
-/
namespace Retarget.Number

/-- The number is an integer. -/
def IsWhole (x : Number) : Prop := ∃ n : Int, x = .dyadic n 0

/-- The number has no fraction: it is an integer, an infinity or no number at all. -/
def HasNoFraction (x : Number) : Prop := ∀ (n : Int) (k : Nat), x = .dyadic n k → k = 0

theorem IsWhole.hasNoFraction {x : Number} (h : x.IsWhole) : x.HasNoFraction := by
  obtain ⟨n, rfl⟩ := h
  intro m k hk
  cases hk
  rfl

theorem isWhole_dyadic (n : Int) : (dyadic n 0).IsWhole := ⟨n, rfl⟩

@[simp] theorem hasNoFraction_dyadic (n : Int) : (dyadic n 0).HasNoFraction :=
  (isWhole_dyadic n).hasNoFraction

@[simp] theorem hasNoFraction_infinite (s : Bool) : (infinite s).HasNoFraction := by
  intro n k h
  cases h

@[simp] theorem hasNoFraction_nan : nan.HasNoFraction := by
  intro n k h
  cases h

theorem twoTo_zero : twoTo 0 = 1 := rfl

/-! ## Rounding -/

theorem round_whole {n} (h : n.natAbs ≤ twoTo 53) : round n 0 = .dyadic n 0 := by
  unfold round
  rw [if_pos ⟨rfl, h⟩]

/-- Rounding an integer gives an integer or an infinity. -/
@[simp] theorem round_hasNoFraction (n : Int) : (round n 0).HasNoFraction := by
  unfold round
  split
  · exact hasNoFraction_dyadic n
  · dsimp only
    split
    · rename_i hle
      rw [Nat.le_zero.mp hle, Nat.sub_zero]
      exact hasNoFraction_dyadic _
    · split
      · exact hasNoFraction_dyadic _
      · exact hasNoFraction_infinite _

/-! ## Arithmetic -/

theorem add_dyadic (a b : Int) : (dyadic a 0).add (.dyadic b 0) = round (a + b) 0 := by
  simp [add, twoTo_zero]

theorem sub_dyadic (a b : Int) : (dyadic a 0).sub (.dyadic b 0) = round (a - b) 0 := by
  rw [sub, neg, add_dyadic, Int.sub_eq_add_neg]

theorem mul_dyadic (a b : Int) : (dyadic a 0).mul (.dyadic b 0) = round (a * b) 0 := rfl

theorem rem_dyadic (h : b ≠ 0) : (dyadic a 0).rem (.dyadic b 0) = .dyadic (a.tmod b) 0 := by
  simp [rem, h, twoTo_zero, reduce]

theorem word_ofInt (bits : Nat) (n : Int) : (ofInt n).word bits = BitVec.ofInt bits n := by
  simp [word, ofInt, toInt?, twoTo_zero]

theorem word_ofNat (bits n : Nat) : (ofNat n).word bits = BitVec.ofNat bits n := word_ofInt bits n

theorem floor_hasNoFraction (x : Number) : x.floor.HasNoFraction := by
  cases x <;> simp [floor]

theorem trunc_hasNoFraction (x : Number) : x.trunc.HasNoFraction := by
  cases x <;> simp [trunc]

theorem ofWord_hasNoFraction (w : BitVec 32) : (ofWord w).HasNoFraction := hasNoFraction_dyadic _

/-- An offset moved on by a whole number is an integer or an infinity again. -/
theorem add_hasNoFraction {x y : Number} (hx : x.HasNoFraction) (hy : y.HasNoFraction) : (x.add y).HasNoFraction := by
  fun_cases add x y
  case case1 a k b l _ =>
    obtain rfl := hx a k rfl
    obtain rfl := hy b l rfl
    exact round_hasNoFraction _
  all_goals simp

/-- A whole number times a power of two that is no fraction. -/
theorem mul_hasNoFraction {x y : Number} (hx : x.HasNoFraction) (hy : y.HasNoFraction) : (x.mul y).HasNoFraction := by
  fun_cases mul x y
  case case1 a k b l =>
    obtain rfl := hx a k rfl
    obtain rfl := hy b l rfl
    exact round_hasNoFraction _
  all_goals simp

theorem rem_hasNoFraction {x y : Number} (hx : x.HasNoFraction) (hy : y.HasNoFraction) : (x.rem y).HasNoFraction := by
  fun_cases rem x y
  case case2 a k b l hb _ =>
    obtain rfl := hx a k rfl
    obtain rfl := hy b l rfl
    exact hasNoFraction_dyadic _
  case case3 => exact hx
  all_goals simp

/-- `2 ^ n` for a whole number `n` from zero on is no fraction. -/
theorem exp2_hasNoFraction (h : 0 ≤ n) : (exp2 (.dyadic n 0)).HasNoFraction := by
  simp only [exp2]
  split
  · exact hasNoFraction_infinite _
  · split
    · exact hasNoFraction_dyadic 0
    · rw [if_pos trivial]
      show (scaleBy n (.dyadic 1 0)).HasNoFraction
      rw [scaleBy, if_pos h]
      exact round_hasNoFraction _

/-! ## Order -/

theorem eq_dyadic (a b : Int) : (dyadic a 0).eq (.dyadic b 0) = decide (a = b) := by
  by_cases h : a = b <;> simp [eq, h]

theorem lt_dyadic (a b : Int) : (dyadic a 0).lt (.dyadic b 0) = decide (a < b) := by
  simp [lt, twoTo_zero]

theorem le_dyadic (a b : Int) : (dyadic a 0).le (.dyadic b 0) = decide (a ≤ b) := by
  rw [le, lt_dyadic, eq_dyadic]
  grind

theorem isZero_dyadic (a : Int) : (dyadic a 0).isZero = decide (a = 0) := eq_dyadic a 0

theorem zero_eq : (0 : Number) = .dyadic 0 0 := rfl

theorem one_eq : (1 : Number) = .dyadic 1 0 := rfl

end Retarget.Number
