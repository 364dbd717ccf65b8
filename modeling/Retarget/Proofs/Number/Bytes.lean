import Mathlib.Data.Nat.Digits.Defs
import Retarget.Emit.M68k.Module
import Retarget.Proofs.Number.Quotient
import Retarget.Proofs.Ty.Range

/-!
# Bytes of whole numbers

The bytes of an integer in two's complement are the digits to base 256 of its remainder modulo a power of 256.
Everything on the way stays below `2 ^ 53`, so no step rounds. Words are pairs of such digits, and joining the
digits gives the remainder back.
-/
namespace Retarget

open Int List Number

/-- The lowest bytes of a natural number, least first. -/
def lowBytes : Nat → Nat → List Nat
  | 0, _ => []
  | count + 1, n => n % 256 :: lowBytes count (n / 256)

@[simp] theorem length_lowBytes (count n : Nat) : (lowBytes count n).length = count := by
  induction count generalizing n with
  | zero => rfl
  | succ _ ih => rw [lowBytes, length_cons, ih]

theorem lt_of_mem_lowBytes {count n byte} (h : byte ∈ lowBytes count n) : byte < 256 := by
  induction count generalizing n with
  | zero => cases h
  | succ _ ih =>
    rcases mem_cons.mp h with rfl | h
    · exact Nat.mod_lt _ (by decide)
    · exact ih h

theorem ofDigits_lowBytes (count n : Nat) : Nat.ofDigits 256 (lowBytes count n) = n % 256 ^ count := by
  induction count generalizing n with
  | zero => simp [lowBytes, Nat.mod_one]
  | succ _ ih => rw [lowBytes, Nat.ofDigits_cons, ih, Nat.pow_succ', Nat.mod_mul]

namespace Number

theorem ofNat_eq (n : Nat) : ofNat n = .dyadic n 0 := rfl

theorem add_ofNat (h : a + b ≤ twoTo 53) : (ofNat a).add (.ofNat b) = .ofNat (a + b) := by
  rw [ofNat_eq, ofNat_eq, add_dyadic, round_whole (by omega)]
  rfl

theorem mul_ofNat (h : a * b ≤ twoTo 53) : (ofNat a).mul (.ofNat b) = .ofNat (a * b) := by
  rw [ofNat_eq, ofNat_eq, mul_dyadic, round_whole (by rw [natAbs_mul]; exact h), ofNat_eq, natCast_mul]

/-! ## Shifting bytes out -/

theorem scaleBy_neg_eight (h : n < twoTo 53) : ((ofNat n).scaleBy (-8)).floor = .ofNat (n / 256) := by
  have hlog : n.log2 + 1 - 53 = 0 := Nat.sub_eq_zero_of_le (log2_lt_of_lt (by decide) h)
  have hround : round n 8 = reduce n 8 := by
    unfold round
    rw [if_neg (by simp), natAbs_natCast, hlog]
    simp [nearest_zero]
  rw [ofNat_eq, scaleBy, if_neg (by decide)]
  exact (congrArg floor hround).trans (floor_reduce n 8)

end Number

theorem byteDigits_ofNat (count : Nat) (h : n < twoTo 53) :
    byteDigits count (.ofNat n) = (lowBytes count n).map .ofNat := by
  induction count generalizing n with
  | zero => rfl
  | succ _ ih =>
    have hrem : (Number.ofNat n).rem 256 = .ofNat (n % 256) := by
      show (dyadic n 0).rem (.dyadic 256 0) = _
      rw [rem_dyadic (by decide)]
      rfl
    rw [byteDigits, hrem, scaleBy_neg_eight h, ih (Nat.lt_of_le_of_lt (Nat.div_le_self _ _) h)]
    rfl

/-- The sizes in bytes that values are stored in. -/
def IsSize (size : Nat) : Prop := size = 1 ∨ size = 2 ∨ size = 4

theorem pow_le_of_isSize (h : IsSize size) : 256 ^ size ≤ 4294967296 := by
  rcases h with rfl | rfl | rfl <;> decide

theorem exp2_size (h : IsSize size) : ((Number.ofNat size).mul 8).exp2 = .dyadic ((256 ^ size : Nat) : Int) 0 := by
  rcases h with rfl | rfl | rfl <;> decide

/-- The bytes of an integer are those of its remainder. -/
theorem bytesOf_dyadic (h : IsSize size) (n : Int) :
    bytesOf (.dyadic n 0) (.ofNat size) =
      (lowBytes size (n % ((256 ^ size : Nat) : Int)).toNat).map .ofNat := by
  have hpos : 0 < 256 ^ size := Nat.pow_pos (by decide)
  have hle := pow_le_of_isSize h
  have hlow := emod_nonneg n (b := ((256 ^ size : Nat) : Int)) (by omega)
  have hhigh := emod_lt_of_pos n (b := ((256 ^ size : Nat) : Int)) (by omega)
  have hrest : (((dyadic n 0).trunc.rem (.dyadic ((256 ^ size : Nat) : Int) 0)).add
      (.dyadic ((256 ^ size : Nat) : Int) 0)).rem (.dyadic ((256 ^ size : Nat) : Int) 0) =
      .ofNat (n % ((256 ^ size : Nat) : Int)).toNat := by
    generalize 256 ^ size = modulus at *
    have htrunc : (dyadic n 0).trunc = .dyadic n 0 := by simp [trunc, twoTo_zero]
    have htmod : n.tmod modulus = if n.tmod modulus < 0 then n % modulus - modulus else n % modulus := by
      rw [tmod_eq_emod]
      split <;> split <;> omega
    rw [htrunc, rem_dyadic (by omega), add_dyadic, round_whole (by rw [twoTo_53]; omega),
      rem_dyadic (by omega), ofNat_eq]
    congr 1
    rw [toNat_of_nonneg hlow]
    have hsum : 0 ≤ n.tmod modulus + modulus := by omega
    rw [tmod_eq_emod_of_nonneg hsum, add_emod_right]
    rw [htmod]
    split
    · rw [sub_emod_right, emod_emod]
    · rw [emod_emod]
  have hbelow : (Number.ofNat size).below = size := by simp [Number.ofNat, Number.below, twoTo_zero]
  unfold bytesOf
  dsimp only
  rw [exp2_size h, hrest, hbelow, byteDigits_ofNat]
  rw [twoTo_53]
  omega

/-! ## Words and longer units -/

/-- The lowest words of a natural number, least first. -/
def lowWords : Nat → Nat → List Nat
  | 0, _ => []
  | count + 1, n => n % 65536 :: lowWords count (n / 65536)

theorem lt_of_mem_lowWords {count n word} (h : word ∈ lowWords count n) : word < 65536 := by
  induction count generalizing n with
  | zero => cases h
  | succ _ ih =>
    rcases mem_cons.mp h with rfl | h
    · exact Nat.mod_lt _ (by decide)
    · exact ih h

/-- The words are the pairs of bytes. -/
theorem wordsOf_lowBytes (count n : Nat) :
    wordsOf ((lowBytes (2 * count) n).map .ofNat) = (lowWords count n).map .ofNat := by
  induction count generalizing n with
  | zero => rfl
  | succ _ ih =>
    have hpair : (Number.ofNat (n % 256)).add (if Number.ofNat (n / 256 % 256) = .nan then 0
        else (Number.ofNat (n / 256 % 256)).mul 256) = .ofNat (n % 65536) := by
      rw [if_neg (by simp [Number.ofNat]), show (256 : Number) = .ofNat 256 from rfl,
        mul_ofNat (by rw [twoTo_53]; omega), add_ofNat (by rw [twoTo_53]; omega)]
      congr 1
      omega
    rw [Nat.mul_succ, lowBytes, lowBytes, map_cons, map_cons, wordsOf, hpair, ih, lowWords,
      Nat.div_div_eq_div_mul]
    rfl

theorem flatMap_lowWords (count n : Nat) : (lowWords count n).flatMap (lowBytes 2) = lowBytes (2 * count) n := by
  induction count generalizing n with
  | zero => rfl
  | succ _ ih =>
    have hfirst : n % 65536 % 256 = n % 256 := by omega
    have hsecond : n % 65536 / 256 % 256 = n / 256 % 256 := by omega
    have hpair : lowBytes 2 (n % 65536) = [n % 256, n / 256 % 256] := by
      rw [lowBytes, lowBytes, lowBytes, hfirst, hsecond]
    rw [lowWords, flatMap_cons, ih, hpair, Nat.mul_succ, lowBytes, lowBytes, Nat.div_div_eq_div_mul]
    rfl

/-- Bytes joined again, the last one highest. -/
theorem foldr_ofNat (bytes : List Nat) (hbytes : ∀ byte ∈ bytes, byte < 256) (hlen : bytes.length ≤ 4) :
    (bytes.map Number.ofNat).foldr (fun byte rest => (rest.mul 256).add byte) 0 =
        Number.ofNat (Nat.ofDigits 256 bytes) ∧
      Nat.ofDigits 256 bytes < 256 ^ bytes.length := by
  induction bytes with
  | nil => exact ⟨rfl, by simp⟩
  | cons byte rest ih =>
    obtain ⟨hfold, hlt⟩ := ih (fun b hb => hbytes b (.tail _ hb)) (by simp at hlen; omega)
    have hbyte := hbytes byte mem_cons_self
    have hpow : 256 ^ rest.length ≤ 256 ^ 3 := by
      rw [length_cons] at hlen
      exact Nat.pow_le_pow_right (by decide) (Nat.le_of_succ_le_succ hlen)
    rw [map_cons, foldr_cons, hfold, Nat.ofDigits_cons, show (256 : Number) = .ofNat 256 from rfl,
      mul_ofNat (by rw [twoTo_53]; omega), add_ofNat (by rw [twoTo_53]; omega)]
    refine ⟨by congr 1; ring, ?_⟩
    rw [length_cons, Nat.pow_succ]
    omega

/-- A value taken without its sign is its remainder. -/
theorem unsignedValue_dyadic {size} (h : IsSize size) (n : Int) :
    M68k.unsignedValue (.ofNat size) (.dyadic n 0) = .ofNat (n % ((256 ^ size : Nat) : Int)).toNat := by
  have hpos : 0 < 256 ^ size := Nat.pow_pos (by decide)
  have hhigh := emod_lt_of_pos n (b := ((256 ^ size : Nat) : Int)) (by omega)
  have hlen : size ≤ 4 := by rcases h with rfl | rfl | rfl <;> decide
  unfold M68k.unsignedValue
  rw [bytesOf_dyadic h, (foldr_ofNat _ (fun _ => lt_of_mem_lowBytes) (by simpa using hlen)).1, ofDigits_lowBytes,
    Nat.mod_eq_of_lt (by omega)]

end Retarget
