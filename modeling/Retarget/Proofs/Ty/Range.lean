import Retarget.Proofs.Number.Whole
import Retarget.Ty.Width

/-!
# Ranges of types

Every type of numbers has a range of integers that its registers can hold. Wrapping brings a number
without a fraction into the range, and keeps what is there already.
-/
namespace Retarget

open Int Number

/-- The widths that integers come in. -/
def IsWidth (bits : Nat) : Prop := bits = 8 ∨ bits = 16 ∨ bits = 24 ∨ bits = 32

instance (bits : Nat) : Decidable (IsWidth bits) := inferInstanceAs (Decidable (_ ∨ _))

/-- The integer fits in so many bits. -/
def InWidth (bits : Nat) (signed : Bool) (n : Int) : Prop :=
  if signed then -(twoTo bits : Int) ≤ 2 * n ∧ 2 * n < twoTo bits else 0 ≤ n ∧ n < twoTo bits

instance (bits : Nat) (signed : Bool) (n : Int) : Decidable (InWidth bits signed n) :=
  inferInstanceAs (Decidable
    (if signed then -(twoTo bits : Int) ≤ 2 * n ∧ 2 * n < twoTo bits else 0 ≤ n ∧ n < twoTo bits))

/-- The integer of so many bits that agrees with `n` in all of them. -/
def wrapInt (bits : Nat) (signed : Bool) (n : Int) : Int :=
  let rest := n % twoTo bits
  if signed ∧ (twoTo bits : Int) ≤ 2 * rest then rest - twoTo bits else rest

theorem twoTo_8 : twoTo 8 = 256 := rfl

theorem twoTo_16 : twoTo 16 = 65536 := rfl

theorem twoTo_24 : twoTo 24 = 16777216 := rfl

theorem twoTo_32 : twoTo 32 = 4294967296 := rfl

theorem twoTo_53 : twoTo 53 = 9007199254740992 := rfl

section
variable {bits : Nat} {signed : Bool}

section
variable (hb : IsWidth bits)
include hb

theorem wrapInt_inWidth (n : Int) : InWidth bits signed (wrapInt bits signed n) := by
  rcases hb with rfl | rfl | rfl | rfl <;> cases signed <;>
    simp only [InWidth, wrapInt, twoTo_8, twoTo_16, twoTo_24, twoTo_32, true_and, false_and, ↓reduceIte,
      Bool.false_eq_true] <;> omega

theorem wrapInt_of_inWidth (h : InWidth bits signed n) : wrapInt bits signed n = n := by
  rcases hb with rfl | rfl | rfl | rfl <;> cases signed <;>
    simp only [InWidth, wrapInt, twoTo_8, twoTo_16, twoTo_24, twoTo_32, true_and, false_and, ↓reduceIte,
      Bool.false_eq_true] at h ⊢ <;> omega

/-- Wrapping forgets only multiples of the modulus, so it may be left out inside a sum. -/
theorem wrapInt_add_wrapInt (n k : Int) :
    wrapInt bits signed (wrapInt bits signed n + k) = wrapInt bits signed (n + k) := by
  rcases hb with rfl | rfl | rfl | rfl <;> cases signed <;>
    simp only [wrapInt, twoTo_8, twoTo_16, twoTo_24, twoTo_32, true_and, false_and, ↓reduceIte,
      Bool.false_eq_true] <;> omega

/-- Two integers of so many bits are equal if their difference wraps around to zero. -/
theorem wrapInt_sub_eq_zero (ha : InWidth bits signed a) (hb' : InWidth bits signed b) :
    wrapInt bits signed (a - b) = 0 ↔ a = b := by
  rcases hb with rfl | rfl | rfl | rfl <;> cases signed <;>
    simp only [InWidth, wrapInt, twoTo_8, twoTo_16, twoTo_24, twoTo_32, true_and, false_and, ↓reduceIte,
      Bool.false_eq_true] at ha hb' ⊢ <;> omega

theorem InWidth.natAbs_le (h : InWidth bits signed n) : n.natAbs ≤ twoTo 32 := by
  rcases hb with rfl | rfl | rfl | rfl <;> cases signed <;>
    simp only [InWidth, twoTo_8, twoTo_16, twoTo_24, twoTo_32, ↓reduceIte, Bool.false_eq_true] at h ⊢ <;>
    omega

end

end

theorem Encoding.isWidth_usedBits (e : Encoding) : IsWidth e.usedBits := by
  cases e <;> decide

namespace Ty

/-- A type that registers can have. Integers come in four widths only. -/
def IsRegister : Ty → Prop
  | .integer bits _ => IsWidth bits
  | .fixed _ | .boolean | .pointer _ => True
  | _ => False

instance (type : Ty) : Decidable type.IsRegister := by
  unfold IsRegister
  split <;> infer_instance

/-- The integers that a register of the type can hold; pointers are no integers. -/
def Holds : Ty → Int → Prop
  | .integer bits signed, n => IsWidth bits ∧ InWidth bits signed n
  | .fixed encoding, n => InWidth encoding.usedBits true n
  | .boolean, n => n = 0 ∨ n = 1
  | _, _ => False

instance (type : Ty) (n : Int) : Decidable (type.Holds n) := by
  unfold Holds
  split <;> infer_instance

/-! ## Wrapping -/

/-- The modulus of a width, and half of it. -/
theorem twoPow_isWidth (hb : IsWidth bits) :
    ∃ half : Int, 2 * half = twoTo bits ∧ 0 < half ∧ half ≤ 2147483648 ∧
      twoPow bits = .dyadic (2 * half) 0 ∧
      (dyadic (2 * half) 0).div 2 = .dyadic half 0 := by
  rcases hb with rfl | rfl | rfl | rfl
  · exact ⟨128, rfl, by decide, by decide, by decide, by decide⟩
  · exact ⟨32768, rfl, by decide, by decide, by decide, by decide⟩
  · exact ⟨8388608, rfl, by decide, by decide, by decide, by decide⟩
  · exact ⟨2147483648, rfl, by decide, by decide, by decide, by decide⟩

theorem wrapTo_dyadic (hb : IsWidth bits) (signed : Bool) (n : Int) :
    wrapTo bits signed (.dyadic n 0) = .dyadic (wrapInt bits signed n) 0 := by
  obtain ⟨half, hhalf, hpos, hle, hpow, hdiv⟩ := twoPow_isWidth hb
  -- the truncated remainder becomes the Euclidean one by adding the modulus where it is negative
  have hmod : n % (2 * half) = if n.tmod (2 * half) < 0 then n.tmod (2 * half) + 2 * half
      else n.tmod (2 * half) := by
    rw [tmod_eq_emod]
    have := emod_nonneg n (b := 2 * half) (by omega)
    have := emod_lt_of_pos n (b := 2 * half) (by omega)
    split <;> split <;> omega
  have hlow := emod_nonneg n (b := 2 * half) (by omega)
  have hhigh := emod_lt_of_pos n (b := 2 * half) (by omega)
  have hunsigned : (if (dyadic (n.tmod (2 * half)) 0).lt 0 then
      (dyadic (n.tmod (2 * half)) 0).add (.dyadic (2 * half) 0)
      else .dyadic (n.tmod (2 * half)) 0) = .dyadic (n % (2 * half)) 0 := by
    rw [hmod, zero_eq, lt_dyadic]
    by_cases hneg : n.tmod (2 * half) < 0
    · simp only [hneg, decide_true, ↓reduceIte] at hmod ⊢
      rw [add_dyadic, round_whole]
      rw [twoTo_53]
      omega
    · simp [hneg]
  simp only [wrapTo, hpow, hdiv, rem_dyadic (show 2 * half ≠ 0 by omega)]
  rw [hunsigned, le_dyadic, wrapInt, ← hhalf]
  by_cases hs : signed = true ∧ half ≤ n % (2 * half)
  · rw [if_pos (by simpa using hs), if_pos ⟨hs.1, by omega⟩, sub_dyadic, round_whole]
    rw [twoTo_53]
    omega
  · rw [if_neg (by simpa using hs), if_neg (by intro h; exact hs ⟨h.1, by omega⟩)]

/-- What has no integer value wraps around to zero. -/
theorem wrapTo_of_rem_eq_nan (hb : IsWidth bits) (signed : Bool) {x} (hx : x.rem (.twoPow bits) = .nan) :
    wrapTo bits signed x = .dyadic (wrapInt bits signed 0) 0 := by
  obtain ⟨half, -, hpos, -, hpow, -⟩ := twoPow_isWidth hb
  rw [← wrapTo_dyadic hb]
  simp only [wrapTo, hx]
  rw [hpow, rem_dyadic (by omega), zero_tmod]
  rfl

theorem wrapTo_hasNoFraction (hb : IsWidth bits) (signed : Bool) {x} (hx : x.HasNoFraction) :
    ∃ n, wrapTo bits signed x = .dyadic (wrapInt bits signed n) 0 := by
  match x with
  | .dyadic n k =>
    obtain rfl := hx n k rfl
    exact ⟨n, wrapTo_dyadic hb signed n⟩
  | .infinite s => exact ⟨0, wrapTo_of_rem_eq_nan hb signed rfl⟩
  | .nan => exact ⟨0, wrapTo_of_rem_eq_nan hb signed rfl⟩

/-- Bits and sign of the types of numbers that wrap around. -/
theorem wrap_integer (bits : Nat) (signed : Bool) (x : Number) :
    (integer bits signed).wrap x = .ok (wrapTo bits signed x) := rfl

theorem wrap_fixed (e : Encoding) (x : Number) : (fixed e).wrap x = .ok (wrapTo e.usedBits true x) := rfl

theorem wrap_boolean (x : Number) : boolean.wrap x = .ok (if x.isZero then 0 else 1) := rfl

/-- Wrapping gives a value that a register of the type can hold. -/
theorem wrap_holds {type : Ty} (ht : type.IsRegister) {x} (hx : x.HasNoFraction) (h : type.wrap x = .ok y) :
    ∃ n, y = .dyadic n 0 ∧ type.Holds n := by
  match type with
  | .integer bits signed =>
    obtain ⟨n, hn⟩ := wrapTo_hasNoFraction ht signed hx
    rw [wrap_integer, hn] at h
    cases h
    exact ⟨_, rfl, ht, wrapInt_inWidth ht n⟩
  | .fixed e =>
    obtain ⟨n, hn⟩ := wrapTo_hasNoFraction e.isWidth_usedBits true hx
    rw [wrap_fixed, hn] at h
    cases h
    exact ⟨_, rfl, wrapInt_inWidth e.isWidth_usedBits n⟩
  | .boolean =>
    rw [wrap_boolean] at h
    cases h
    by_cases hz : x.isZero
    · exact ⟨0, by rw [if_pos hz]; rfl, Or.inl rfl⟩
    · exact ⟨1, by rw [if_neg hz]; rfl, Or.inr rfl⟩
  | .pointer _ => cases h

/-- Wrapping keeps what a register of the type holds. -/
theorem wrap_of_holds {type : Ty} (h : type.Holds n) : type.wrap (.dyadic n 0) = .ok (.dyadic n 0) := by
  match type with
  | .integer bits signed => rw [wrap_integer, wrapTo_dyadic h.1, wrapInt_of_inWidth h.1 h.2]
  | .fixed e => rw [wrap_fixed, wrapTo_dyadic e.isWidth_usedBits, wrapInt_of_inWidth e.isWidth_usedBits h]
  | .boolean =>
    rw [wrap_boolean, isZero_dyadic]
    rcases h with rfl | rfl <;> rfl

theorem Holds.natAbs_le {type : Ty} (h : type.Holds n) : n.natAbs ≤ twoTo 32 := by
  match type with
  | .integer bits signed => exact h.2.natAbs_le h.1
  | .fixed e => exact InWidth.natAbs_le e.isWidth_usedBits h
  | .boolean =>
    rw [twoTo_32]
    rcases h with rfl | rfl <;> decide

/-- A value without a sign that is not zero is above zero. -/
theorem Holds.nonneg {type : Ty} (h : type.Holds n) (hs : type.isSigned = .ok false) : 0 ≤ n := by
  match type with
  | .integer bits signed =>
    cases hs
    exact h.2.1
  | .boolean => rcases h with rfl | rfl <;> decide

end Ty

end Retarget
