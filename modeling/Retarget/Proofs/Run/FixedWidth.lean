import Retarget.Proofs.Number.Quotient
import Retarget.Proofs.Run.Arithmetic

/-!
# Arithmetic of a fixed width

Whatever way an operation takes, by doubles or by words of 32 bits, on values in range it gives what the integers
give, reduced to the width of the type. Nothing on the way is rounded but quotients, and these not so far that
their whole parts change (`evaluateBinary_fixedWidth`).
-/
namespace Retarget

open BitVec Number Operator

/-- The operation on two integers, as values of the type, gives an integer. -/
def Operator.Gives (operator : Operator) (type : Ty) (a b n : Int) : Prop :=
  evaluateBinary operator type (.ofInt a) (.ofInt b) = .ok (.ofInt n)

/-- The operations on two values of a type that has the width and the sign are those of the integers, up to a
multiple of a power of two. -/
structure FixedWidth (type : Ty) (bits : Nat) (signed : Bool) (a b : Int) : Prop where
  add : add.Gives type a b (wrapInt bits signed (a + b))
  subtract : subtract.Gives type a b (wrapInt bits signed (a - b))
  multiply : multiply.Gives type a b (wrapInt bits signed (a * b / 2 ^ type.shift))
  divide : b ≠ 0 → divide.Gives type a b (wrapInt bits signed ((a * 2 ^ type.shift).tdiv b))
  modulo : b ≠ 0 → modulo.Gives type a b (wrapInt bits signed (a.tmod b))
  byZero : b = 0 → ∃ failure : Failure, failure.message = "division by zero" ∧
    ∀ operator ∈ [Operator.divide, .modulo],
      evaluateBinary operator type (.ofInt a) (.ofInt b) = .error (.failure failure)
  and : Operator.and.Gives type a b (wrapInt bits signed (BitVec.ofInt bits a &&& BitVec.ofInt bits b).toInt)
  or : Operator.or.Gives type a b (wrapInt bits signed (BitVec.ofInt bits a ||| BitVec.ofInt bits b).toInt)
  xor : Operator.xor.Gives type a b (wrapInt bits signed (BitVec.ofInt bits a ^^^ BitVec.ofInt bits b).toInt)
  shiftLeft : 0 ≤ b → b < bits → shiftLeft.Gives type a b (wrapInt bits signed (a * 2 ^ b.toNat))
  shiftRight : 0 ≤ b → b < bits → shiftRight.Gives type a b (a / 2 ^ b.toNat)
  shiftedOut : b < 0 ∨ bits ≤ b → Operator.shiftLeft.Gives type a b 0 ∧
    Operator.shiftRight.Gives type a b (if signed ∧ a < 0 then -1 else 0)

/-! ## Words -/

section
variable {bits : Nat} {signed : Bool}

/-- Reduction to a width depends on no other bits. -/
theorem wrapInt_congr (h : BitVec.ofInt bits n = BitVec.ofInt bits m) :
    wrapInt bits signed n = wrapInt bits signed m := by
  have hmod : n % twoTo bits = m % twoTo bits := by
    have hpos : (twoTo bits : Int) ≠ 0 := Int.natCast_ne_zero.mpr (twoTo_pos bits).ne'
    have hnat := congrArg BitVec.toNat h
    rw [toNat_ofInt, toNat_ofInt] at hnat
    rw [← Int.toNat_of_nonneg (Int.emod_nonneg n hpos), ← Int.toNat_of_nonneg (Int.emod_nonneg m hpos)]
    exact congrArg Nat.cast hnat
  simp only [wrapInt, hmod]

theorem setWidth_ofInt (hb : IsWidth bits) (n : Int) : (BitVec.ofInt 32 n).setWidth bits = BitVec.ofInt bits n := by
  apply eq_of_toNat_eq
  rw [toNat_setWidth, toNat_ofInt, toNat_ofInt]
  rcases hb with rfl | rfl | rfl | rfl <;> omega

/-- An operation on words of 32 bits, bit by bit, is one on words of any less. -/
theorem wrapInt_word (hb : IsWidth bits) {op : ∀ w, BitVec w → BitVec w → BitVec w}
    (hop : ∀ u v, (op 32 u v).setWidth bits = op bits (u.setWidth bits) (v.setWidth bits)) (a b : Int) :
    wrapInt bits signed (op 32 (BitVec.ofInt 32 a) (BitVec.ofInt 32 b)).toInt =
      wrapInt bits signed (op bits (BitVec.ofInt bits a) (BitVec.ofInt bits b)).toInt := by
  have hle : bits ≤ 32 := by rcases hb with rfl | rfl | rfl | rfl <;> decide
  apply wrapInt_congr
  rw [BitVec.ofInt_toInt, ← setWidth_ofInt hb a, ← setWidth_ofInt hb b, ← hop]
  exact signExtend_eq_setWidth_of_le _ hle

theorem InWidth.natAbs_le_twoTo (h : InWidth bits signed n) : n.natAbs ≤ twoTo bits := by
  cases signed <;> simp only [InWidth, if_true, Bool.false_eq_true, if_false] at h <;> omega

theorem natCast_twoTo (n : Nat) : (twoTo n : Int) = 2 ^ n := Int.natCast_pow 2 n

theorem InWidth.ediv (h : InWidth bits signed n) (c : Nat) : InWidth bits signed (n / 2 ^ c) := by
  have hpos : (0 : Int) < 2 ^ c := Int.pow_pos (by decide)
  have hbounds : 0 ≤ n ∧ 0 ≤ n / 2 ^ c ∧ n / 2 ^ c ≤ n ∨ n < 0 ∧ n ≤ n / 2 ^ c ∧ n / 2 ^ c < 0 := by
    rcases lt_or_ge n 0 with hneg | hnonneg
    · exact Or.inr ⟨hneg, (Int.le_ediv_iff_mul_le hpos).mpr (by nlinarith), Int.ediv_neg_of_neg_of_pos hneg hpos⟩
    · exact Or.inl ⟨hnonneg, Int.ediv_nonneg hnonneg hpos.le, Int.ediv_le_self _ hnonneg⟩
  cases signed <;> simp only [InWidth, if_true, Bool.false_eq_true, if_false] at h ⊢ <;> omega

end

/-! ## Operations -/

section
variable {type : Ty} {bits : Nat} {signed : Bool} {a b : Int}

theorem shiftCount?_ofInt (bits : Nat) (b : Int) :
    shiftCount? bits (.ofInt b) = if b < 0 ∨ bits ≤ b then none else some (.ofInt b) := by
  have hcond : ((ofInt b).lt 0 || (ofNat bits).le (.ofInt b)) = decide (b < 0 ∨ bits ≤ b) := by
    rw [Number.zero_eq, Number.ofInt, Number.ofNat, Number.lt_dyadic, Number.le_dyadic, Bool.decide_or]
  unfold shiftCount?
  rw [hcond]
  simp only [decide_eq_true_eq]

/-- What a scaled value of the type takes. -/
theorem Ty.bits_add_shift_le (ht : type.IsRegister) (hbits : type.valueBits = .ok (some bits)) :
    bits + type.shift ≤ 40 := by
  match type with
  | .integer width signed =>
    cases hbits
    rcases ht with rfl | rfl | rfl | rfl <;> exact Nat.le_of_ble_eq_true rfl
  | .fixed e =>
    cases hbits
    cases e <;> decide
  | .boolean =>
    cases hbits
    decide

theorem Ty.WrapsAt.gives (hw : type.WrapsAt bits signed) (hm : wrapInt bits signed n = m)
    (h : evaluateBinary operator type (.ofInt a) (.ofInt b) = (type.wrap (.dyadic n 0)).step) :
    operator.Gives type a b m := by
  rw [Gives, h, hw.wrap_eq, hm]
  rfl

theorem twoPow_eq (h : n ≤ 40) : Number.twoPow n = .dyadic (twoTo n) 0 := if_pos (by omega)

theorem Ty.WrapsAt.bitwise (hw : type.WrapsAt bits signed) (op : ∀ w, BitVec w → BitVec w → BitVec w)
    (hop : ∀ u v, (op 32 u v).setWidth bits = op bits (u.setWidth bits) (v.setWidth bits))
    (h : evaluateBinary operator type (.ofInt a) (.ofInt b) =
      (type.wrap (.ofWord (op 32 ((ofInt a).word 32) ((ofInt b).word 32)))).step) :
    operator.Gives type a b (wrapInt bits signed (op bits (BitVec.ofInt bits a) (BitVec.ofInt bits b)).toInt) := by
  rw [word_ofInt, word_ofInt] at h
  exact hw.gives (wrapInt_word hw.isWidth hop a b) h

theorem evaluateBinary_shiftLeft (hbits : type.valueBits = .ok (some bits)) (x y : Number) :
    evaluateBinary .shiftLeft type x y = match shiftCount? bits y with
      | none => .ok 0
      | some count => (type.wrap (x.mul count.exp2)).step := by
  unfold evaluateBinary
  rw [hbits]
  rfl

theorem evaluateBinary_shiftRight (hbits : type.valueBits = .ok (some bits)) (hsigned : type.isSigned = .ok signed)
    (x y : Number) : evaluateBinary .shiftRight type x y = match shiftCount? bits y with
      | none => .ok (if signed && x.lt 0 then .ofInt (-1) else 0)
      | some count => (type.wrap (x.div count.exp2).floor).step := by
  unfold evaluateBinary
  rw [hbits, hsigned]
  rfl

section
variable (hw : type.WrapsAt bits signed) (hbits : type.valueBits = .ok (some bits)) (ha : InWidth bits signed a)
include hw hbits ha

theorem Ty.WrapsAt.multiply (hn : type.isNumeric) (hb : InWidth bits signed b) :
    multiply.Gives type a b (wrapInt bits signed (a * b / 2 ^ type.shift)) := by
  have hproduct : bits ≤ 24 → (a * b).natAbs ≤ twoTo 48 := by
    intro hle
    rw [Int.natAbs_mul, show twoTo 48 = twoTo 24 * twoTo 24 from rfl]
    exact Nat.mul_le_mul (ha.natAbs_le_twoTo.trans (twoTo_le hle)) (hb.natAbs_le_twoTo.trans (twoTo_le hle))
  match type with
  | .integer _ _ =>
    cases hbits
    rw [show a * b / 2 ^ _ = a * b from Int.ediv_one _]
    by_cases h32 : bits = 32
    · subst h32
      refine hw.gives (n := (BitVec.ofInt 32 a * BitVec.ofInt 32 b).toInt) (wrapInt_congr ?_) ?_
      · rw [ofInt_toInt, ofInt_mul]
      · rw [← Number.word_ofInt, ← Number.word_ofInt]
        rfl
    · have hle : bits ≤ 24 := by
        rcases hw.isWidth with rfl | rfl | rfl | rfl <;> omega
      refine hw.gives rfl ?_
      rw [← round_whole ((hproduct hle).trans (by decide)), ← mul_dyadic]
      exact congrArg (fun x => (Ty.wrap (.integer bits _) x).step) (if_neg h32)
  | .fixed e =>
    cases hbits
    have hle : e.usedBits ≤ 24 := by cases e <;> decide
    have hshift : e.shift ≤ 16 := by cases e <;> decide
    refine hw.gives rfl ?_
    rw [← natCast_twoTo, Ty.shift, ← floor_div (Nat.lt_of_le_of_lt (hproduct hle) (by decide))
      (Int.natCast_pos.mpr (twoTo_pos _)) (Nat.lt_of_le_of_lt (twoTo_le hshift) (by decide)),
      ← Number.round_whole ((hproduct hle).trans (by decide)), ← Number.mul_dyadic,
      ← twoPow_eq (hshift.trans (by decide))]
    rfl
  | .boolean => cases hn

theorem Ty.WrapsAt.divide (ht : type.IsRegister) (hb : InWidth bits signed b) (hzero : b ≠ 0) :
    Operator.divide.Gives type a b (wrapInt bits signed ((a * 2 ^ type.shift).tdiv b)) := by
  have hle := Ty.bits_add_shift_le ht hbits
  have hscaled : (a * twoTo type.shift).natAbs ≤ twoTo 40 := by
    rw [Int.natAbs_mul]
    exact (Nat.mul_le_mul_right _ ha.natAbs_le_twoTo).trans (twoTo_add _ _ ▸ twoTo_le hle)
  have hdivisor := hb.natAbs_le_twoTo.trans (twoTo_le (Nat.le_of_add_right_le hle))
  refine hw.gives rfl ?_
  rw [← natCast_twoTo, ← trunc_div (Nat.lt_of_le_of_lt hscaled (by decide)) hzero
    (Nat.lt_of_le_of_lt hdivisor (by decide)), ← round_whole (hscaled.trans (by decide)), ← mul_dyadic,
    ← twoPow_eq (Nat.le_of_add_left_le hle)]
  unfold evaluateBinary
  rw [hbits]
  exact if_neg (by rw [ofInt, isZero_dyadic]; simpa using hzero)

theorem Ty.WrapsAt.shiftLeft (hlow : 0 ≤ b) (hhigh : b < bits) :
    shiftLeft.Gives type a b (wrapInt bits signed (a * 2 ^ b.toNat)) := by
  have hle : bits ≤ 32 := by rcases hw.isWidth with rfl | rfl | rfl | rfl <;> decide
  have ha' := ha.natAbs_le_twoTo.trans (twoTo_le hle)
  refine hw.gives rfl ?_
  rw [evaluateBinary_shiftLeft hbits, shiftCount?_ofInt, if_neg (by omega), ← natCast_twoTo,
    ← round_mul_twoTo (Nat.lt_of_le_of_lt ha' (by decide)) (by omega), ← mul_dyadic,
    ← exp2_whole (by omega), Int.toNat_of_nonneg hlow]
  rfl

theorem Ty.WrapsAt.shiftRight (hsigned : type.isSigned = .ok signed) (hlow : 0 ≤ b) (hhigh : b < bits) :
    shiftRight.Gives type a b (a / 2 ^ b.toNat) := by
  have hle : bits ≤ 32 := by rcases hw.isWidth with rfl | rfl | rfl | rfl <;> decide
  have ha' := ha.natAbs_le_twoTo.trans (twoTo_le hle)
  have hcount : twoTo b.toNat ≤ twoTo 32 := twoTo_le (by omega)
  refine hw.gives (wrapInt_of_inWidth hw.isWidth (ha.ediv _)) ?_
  rw [evaluateBinary_shiftRight hbits hsigned, shiftCount?_ofInt, if_neg (by omega), ← natCast_twoTo,
    ← floor_div (Nat.lt_of_le_of_lt ha' (by decide)) (Int.natCast_pos.mpr (twoTo_pos _))
      (Nat.lt_of_le_of_lt hcount (by decide)),
    ← exp2_whole (by omega), Int.toNat_of_nonneg hlow]
  rfl

end

/-- All operations on values in range are exact at the width of their type. -/
theorem evaluateBinary_fixedWidth (hn : type.isNumeric) (hbits : type.valueBits = .ok (some bits))
    (hsigned : type.isSigned = .ok signed) (ha : type.Holds a) (hb : type.Holds b) :
    FixedWidth type bits signed a b := by
  have ht := ha.isRegister
  have hw : type.WrapsAt bits signed := by
    obtain ⟨_, _, hbits', hsigned', hw⟩ := Ty.wrapsAt_of_isNumeric ht hn
    cases hbits.symm.trans hbits'
    cases hsigned.symm.trans hsigned'
    exact hw
  have hsize := ha.natAbs_le
  have hsize' := hb.natAbs_le
  rw [twoTo_32] at hsize hsize'
  rw [hw.holds_iff] at ha hb
  have hexact : ∀ n : Int, n.natAbs ≤ 8589934592 → round n 0 = .dyadic n 0 := fun n hn =>
    round_whole (hn.trans (by decide))
  constructor
  case add =>
    refine hw.gives rfl ?_
    rw [evaluateBinary_add ⟨bits, hbits⟩, ofInt, ofInt, add_dyadic, hexact _ (by omega)]
  case subtract =>
    refine hw.gives rfl ?_
    rw [evaluateBinary_subtract ⟨bits, hbits⟩, ofInt, ofInt, sub_dyadic, hexact _ (by omega)]
  case multiply => exact hw.multiply hbits ha hn hb
  case divide => exact hw.divide hbits ha ht hb
  case modulo =>
    intro hzero
    refine hw.gives rfl ?_
    unfold evaluateBinary
    rw [hbits, ← rem_dyadic hzero]
    exact if_neg (by rw [ofInt, isZero_dyadic]; simpa using hzero)
  case byZero =>
    rintro rfl
    refine ⟨.divisionByZero, rfl, fun operator hmem => ?_⟩
    unfold evaluateBinary
    rw [hbits]
    simp only [List.mem_cons, List.not_mem_nil, or_false] at hmem
    rcases hmem with rfl | rfl <;> rfl
  case and =>
    exact hw.bitwise (fun _ => (· &&& ·)) (fun _ _ => setWidth_and) (by unfold evaluateBinary; rw [hbits]; rfl)
  case or =>
    exact hw.bitwise (fun _ => (· ||| ·)) (fun _ _ => BitVec.setWidth_or) (by unfold evaluateBinary; rw [hbits]; rfl)
  case xor =>
    exact hw.bitwise (fun _ => (· ^^^ ·)) (fun _ _ => BitVec.setWidth_xor) (by unfold evaluateBinary; rw [hbits]; rfl)
  case shiftLeft => exact hw.shiftLeft hbits ha
  case shiftRight => exact hw.shiftRight hbits ha hsigned
  case shiftedOut =>
    intro hout
    have hcount := (shiftCount?_ofInt bits b).trans (if_pos hout)
    constructor
    · rw [Gives, evaluateBinary_shiftLeft hbits, hcount]
      rfl
    · rw [Operator.Gives, evaluateBinary_shiftRight hbits hsigned, hcount, Number.ofInt, Number.zero_eq,
        Number.lt_dyadic]
      cases signed <;> by_cases hneg : a < 0 <;> simp [hneg] <;> rfl

/-- The quotient of the least word by minus one is out of range and wraps around to the least word. -/
theorem fixedWidth_least : (Ty.integer 32 true).Holds (-2147483648) ∧
    FixedWidth (.integer 32 true) 32 true (-2147483648) (-1) ∧
    Operator.divide.Gives (.integer 32 true) (-2147483648) (-1) (-2147483648) := by
  have hfixed := evaluateBinary_fixedWidth rfl rfl rfl (show (Ty.integer 32 true).Holds (-2147483648) by decide)
    (show (Ty.integer 32 true).Holds (-1) by decide)
  exact ⟨by decide, hfixed, hfixed.divide (by decide)⟩

end

end Retarget
