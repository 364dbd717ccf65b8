import Mathlib.Tactic.Linarith
import Mathlib.Tactic.Ring
import Retarget.Proofs.Number.Whole

/-!
# Quotients of whole numbers

The quotient of two whole numbers is rounded, but by less than what is between it and the next whole number. So
whichever way its fraction is cut off, what is left is the whole part of the exact quotient.
-/
namespace Retarget

open Nat

theorem twoTo_add (m n : Nat) : twoTo (m + n) = twoTo m * twoTo n := pow_add 2 m n

theorem twoTo_pos (n : Nat) : 0 < twoTo n := Nat.two_pow_pos n

theorem twoTo_le (h : m ≤ n) : twoTo m ≤ twoTo n := Nat.pow_le_pow_right (by decide) h

/-! ## Whole parts -/

/-- A fraction whose distance to a quotient is less than a part of the divisor has the same whole part, if the
quotient is no whole number; if it is one, the fraction has to be the same. -/
theorem ediv_eq_of_near {n d kept unit : Int} (hd : 0 < d) (hunit : 0 < unit) (hexact : d ∣ n → d * kept = n * unit)
    (hlow : n * unit - unit < d * kept) (hhigh : d * kept < n * unit + unit) : kept / unit = n / d := by
  have hn := Int.emod_add_mul_ediv n d
  have hrest := Int.emod_lt_of_pos n hd
  rw [Int.ediv_eq_iff_of_pos hunit]
  rcases (Int.emod_nonneg n hd.ne').eq_or_lt with hzero | hpos
  · have hkept : d * kept = d * (n / d * unit) := by
      rw [hexact (Int.dvd_of_emod_eq_zero hzero.symm)]
      nth_rewrite 1 [← hn, ← hzero]
      ring
    rw [Int.eq_of_mul_eq_mul_left hd.ne' hkept]
    omega
  · constructor
    · refine le_of_mul_le_mul_left ?_ hd
      nlinarith
    · refine lt_of_mul_lt_mul_left ?_ hd.le
      nlinarith

namespace Number

theorem floor_reduce (n : Int) (scale : Nat) : (reduce n scale).floor = .dyadic (n / twoTo scale) 0 := by
  induction scale generalizing n with
  | zero => simp [reduce, floor]
  | succ _ ih =>
    unfold reduce
    split
    · rw [ih, Int.ediv_ediv_of_nonneg (by decide)]
      congr 2
      simp only [twoTo, pow_eq, pow_succ]
      push_cast
      ring
    · rfl

theorem trunc_reduce (n : Int) (scale : Nat) : (reduce n scale).trunc = .dyadic (n.tdiv (twoTo scale)) 0 := by
  induction scale generalizing n with
  | zero => simp [reduce, trunc]
  | succ _ ih =>
    unfold reduce
    split
    · rename_i heven
      obtain ⟨half, rfl⟩ := Int.dvd_of_emod_eq_zero heven
      rw [ih, Int.mul_ediv_cancel_left _ (by decide), twoTo_add, Nat.mul_comm, Int.natCast_mul]
      congr 1
      exact (Int.mul_tdiv_mul_of_pos _ _ (by decide)).symm
    · rfl

/-! ## Rounding -/

theorem nearest_zero (n : Int) : nearest n 0 = n := by
  simp [nearest, twoTo_zero]

/-- The nearest whole number is at most one half away. -/
theorem nearest_bounds (n : Int) (bits : Nat) : 2 * n - twoTo bits ≤ 2 * (twoTo bits * nearest n bits) ∧
    2 * (twoTo bits * nearest n bits) ≤ 2 * n + twoTo bits := by
  have hpos : (0 : Int) < twoTo bits := Int.natCast_pos.mpr (twoTo_pos bits)
  have hn := Int.emod_add_mul_ediv n (twoTo bits)
  have hlow := Int.emod_nonneg n hpos.ne'
  have hhigh := Int.emod_lt_of_pos n hpos
  have hnext := Int.mul_add (twoTo bits : Int) (n / twoTo bits) 1
  unfold nearest
  dsimp only
  split_ifs <;> omega

/-- A quotient, cut off and with one more bit for what was lost, is at most one such bit away. -/
theorem cut_bounds (scaled : Nat) (hd : 0 < d) : let cut := 2 * (scaled / d) + if scaled % d = 0 then 0 else 1
    2 * scaled < d * cut + d ∧ d * cut < 2 * scaled + d ∧ (d ∣ scaled → d * cut = 2 * scaled) := by
  have hscaled := div_add_mod scaled d
  have hrest := mod_lt scaled hd
  have hdouble : d * (2 * (scaled / d)) = 2 * (d * (scaled / d)) := mul_left_comm ..
  dsimp only
  split
  · rename_i hzero
    rw [add_zero, hdouble]
    omega
  · rename_i hlost
    rw [mul_add, hdouble]
    exact ⟨by omega, by omega, fun hdvd => absurd (mod_eq_zero_of_dvd hdvd) hlost⟩

theorem log2_lt_of_lt (hk : 0 < k) (h : n < twoTo k) : n.log2 < k := by
  rcases Nat.eq_zero_or_pos n with rfl | hpos
  · exact hk
  · exact (log2_lt hpos.ne').mpr h

/-- Of a few bits too many only those are dropped. -/
theorem round_eq_reduce {n : Int} (hn : n.natAbs < twoTo 59) (hlow : 6 ≤ scale) (hhigh : scale ≤ 1074) :
    ∃ drop ≤ 6, round n scale = reduce (nearest n drop) (scale - drop) := by
  have hlog := log2_lt_of_lt (by decide) hn
  have hmax : max (n.natAbs.log2 + 1 - 53) (scale - 1074) = n.natAbs.log2 + 1 - 53 := by omega
  refine ⟨n.natAbs.log2 + 1 - 53, by omega, ?_⟩
  unfold round
  rw [if_neg (by omega), hmax]
  exact if_pos (by omega)

/-- A number near to a quotient, rounded, is still near to it. -/
theorem near_of_nearest (hd : 0 < d) (hroom : d * (twoTo drop + 2) < 2 * twoTo (drop + scale))
    (hexact : (d : Int) ∣ n → d * c = n * twoTo (drop + scale)) (hlow : n * twoTo (drop + scale) - d < d * c)
    (hhigh : d * c < n * twoTo (drop + scale) + d) :
    ((d : Int) ∣ n → d * nearest c drop = n * twoTo scale) ∧
      n * twoTo scale - twoTo scale < d * nearest c drop ∧ d * nearest c drop < n * twoTo scale + twoTo scale := by
  obtain ⟨hnear, hnear'⟩ := nearest_bounds c drop
  have hpos : (0 : Int) < twoTo drop := Int.natCast_pos.mpr (twoTo_pos drop)
  have hd : (0 : Int) < d := Int.natCast_pos.mpr hd
  have hroom : (d : Int) * (twoTo drop + 2) < 2 * (twoTo drop * twoTo scale) := by
    rw [twoTo_add] at hroom
    exact_mod_cast hroom
  rw [twoTo_add, Int.natCast_mul] at hexact hlow hhigh
  generalize nearest c drop = kept at *
  generalize (twoTo drop : Int) = part at *
  generalize (twoTo scale : Int) = unit at *
  refine ⟨?_, ?_, ?_⟩
  · rintro ⟨t, rfl⟩
    have hc : c = t * (part * unit) := by
      refine Int.eq_of_mul_eq_mul_left hd.ne' ?_
      rw [hexact (Int.dvd_mul_right _ _)]
      ring
    have hbelow : 2 * (t * unit) - 1 ≤ 2 * kept := le_of_mul_le_mul_left (by rw [hc] at hnear; linarith) hpos
    have habove : 2 * kept ≤ 2 * (t * unit) + 1 := le_of_mul_le_mul_left (by rw [hc] at hnear'; linarith) hpos
    rw [show kept = t * unit by omega]
    ring
  · refine lt_of_mul_lt_mul_left (a := part) ?_ hpos.le
    nlinarith
  · refine lt_of_mul_lt_mul_left (a := part) ?_ hpos.le
    nlinarith

/-- A quotient is rounded by less than a part of its divisor, and not at all if it is a whole number. -/
theorem ratio_spec {n : Int} (hn : n.natAbs < twoTo 51) (hd : 0 < d) (hd' : d < twoTo 53) :
    ∃ kept scale, ratio n d = reduce kept scale ∧ ((d : Int) ∣ n → d * kept = n * twoTo scale) ∧
      n * twoTo scale - twoTo scale < d * kept ∧ d * kept < n * twoTo scale + twoTo scale := by
  have hlogn := log2_lt_of_lt (by decide) hn
  have hlogd := log2_lt_of_lt (by decide) hd'
  obtain ⟨shift, hshift⟩ : ∃ shift, shift = 56 + d.log2 - n.natAbs.log2 := ⟨_, rfl⟩
  obtain ⟨hlow, hhigh, hexact⟩ := cut_bounds (n.natAbs * twoTo shift) hd
  unfold ratio
  rw [← hshift]
  dsimp only
  generalize 2 * (n.natAbs * twoTo shift / d) + (if n.natAbs * twoTo shift % d = 0 then 0 else 1) = cut at *
  have hsmall : cut < twoTo 59 := by
    have hscaled : n.natAbs * twoTo shift < twoTo 57 * d := calc
      n.natAbs * twoTo shift < twoTo (n.natAbs.log2 + 1) * twoTo shift :=
        mul_lt_mul_of_pos_right lt_log2_self (twoTo_pos shift)
      _ = twoTo 57 * twoTo d.log2 := by
        rw [← twoTo_add, ← twoTo_add]
        congr 1
        omega
      _ ≤ twoTo 57 * d := mul_le_mul_left _ (log2_self_le hd.ne')
    refine lt_of_mul_lt_mul_left (a := d) ?_ (zero_le _)
    rw [show twoTo 59 = 2 * twoTo 57 + 2 * twoTo 57 from rfl]
    have : d ≤ d * (2 * twoTo 57) := Nat.le_mul_of_pos_right d (by decide)
    linarith
  generalize hc : (if n < 0 then -(cut : Int) else cut) = c
  have hcut : c.natAbs = cut := by
    subst hc
    split <;> simp
  obtain ⟨drop, hdrop, hround⟩ := round_eq_reduce (hcut.trans_lt hsmall) (show 6 ≤ shift + 1 by omega) (by omega)
  refine ⟨nearest c drop, shift + 1 - drop, hround, ?_⟩
  have hsign : n * twoTo (shift + 1) = 2 * (n.natAbs * twoTo shift : Nat) ∧ d * c = (d * cut : Nat) ∨
      n * twoTo (shift + 1) = -(2 * (n.natAbs * twoTo shift : Nat)) ∧ d * c = -(d * cut : Nat) := by
    rw [twoTo_add, show twoTo 1 = 2 from rfl]
    push_cast
    rcases lt_or_ge n 0 with hneg | hnonneg
    · rw [if_pos hneg] at hc
      rw [← hc, abs_of_neg hneg]
      exact Or.inr ⟨by ring, by ring⟩
    · rw [if_neg hnonneg.not_gt] at hc
      rw [← hc, abs_of_nonneg hnonneg]
      exact Or.inl ⟨by ring, rfl⟩
  have hscale : drop + (shift + 1 - drop) = shift + 1 := by omega
  apply near_of_nearest hd <;> rw [hscale]
  · have hle : twoTo drop ≤ 64 := twoTo_le hdrop
    calc
      d * (twoTo drop + 2) ≤ d * 128 := mul_le_mul_left _ (by omega)
      _ < twoTo (d.log2 + 1) * 128 := mul_lt_mul_of_pos_right lt_log2_self (by decide)
      _ = twoTo (d.log2 + 8) := (twoTo_add _ 7).symm
      _ ≤ twoTo (shift + 2) := twoTo_le (by omega)
      _ = 2 * twoTo (shift + 1) := (twoTo_add _ 1).trans (mul_comm _ _)
  · intro hdvd
    have := hexact ((Int.natCast_dvd.mp hdvd).mul_right _)
    omega
  · omega
  · omega

/-! ## Division -/

theorem div_dyadic (hb : b ≠ 0) : (dyadic a 0).div (.dyadic b 0) = ratio (if b < 0 then -a else a) b.natAbs := by
  simp [div, hb, twoTo_zero]

/-- The whole part of a quotient is the greatest integer that is not above it. -/
theorem floor_div {a d : Int} (ha : a.natAbs < twoTo 51) (hd : 0 < d) (hd' : d.natAbs < twoTo 53) :
    ((dyadic a 0).div (.dyadic d 0)).floor = .dyadic (a / d) 0 := by
  obtain ⟨_, scale, hratio, hexact, hlow, hhigh⟩ := ratio_spec ha (Int.natAbs_pos.mpr hd.ne') hd'
  have hunit : (0 : Int) < twoTo scale := Int.natCast_pos.mpr (twoTo_pos scale)
  rw [Int.natAbs_of_nonneg hd.le] at hexact hlow hhigh
  rw [div_dyadic hd.ne', if_neg hd.not_gt, hratio, floor_reduce, ediv_eq_of_near hd hunit hexact hlow hhigh]

/-- A quotient without its fraction is the integer quotient. -/
theorem trunc_div {a b : Int} (ha : a.natAbs < twoTo 51) (hb : b ≠ 0) (hb' : b.natAbs < twoTo 53) :
    ((dyadic a 0).div (.dyadic b 0)).trunc = .dyadic (a.tdiv b) 0 := by
  have hquotient : a.tdiv b = (if b < 0 then -a else a).tdiv b.natAbs := by
    split
    · rename_i hneg
      rw [show (b.natAbs : Int) = -b by omega, Int.tdiv_neg, Int.neg_tdiv, Int.neg_neg]
    · rw [show (b.natAbs : Int) = b by omega]
  have hn : (if b < 0 then -a else a).natAbs < twoTo 51 := by split <;> simpa using ha
  rw [div_dyadic hb, hquotient]
  generalize (if b < 0 then -a else a) = n at *
  obtain ⟨kept, scale, hratio, hexact, hlow, hhigh⟩ := ratio_spec hn (Int.natAbs_pos.mpr hb) hb'
  have hd : (0 : Int) < b.natAbs := Int.natCast_pos.mpr (Int.natAbs_pos.mpr hb)
  have hunit : (0 : Int) < twoTo scale := Int.natCast_pos.mpr (twoTo_pos scale)
  rw [hratio, trunc_reduce]
  congr 1
  generalize (b.natAbs : Int) = d at *
  generalize (twoTo scale : Int) = unit at *
  rcases le_total 0 n with hpos | hneg
  · have hparts := ediv_eq_of_near hd hunit hexact hlow hhigh
    have hkept : 0 ≤ kept := (Int.ediv_nonneg_iff_of_pos hunit).mp (hparts ▸ Int.ediv_nonneg hpos hd.le)
    rw [Int.tdiv_eq_ediv_of_nonneg hkept, hparts, Int.tdiv_eq_ediv_of_nonneg hpos]
  · have hparts : -kept / unit = -n / d := by
      refine ediv_eq_of_near hd hunit (fun hdvd => ?_) (by linarith) (by linarith)
      linarith [hexact (Int.dvd_neg.mp hdvd)]
    have hkept : 0 ≤ -kept :=
      (Int.ediv_nonneg_iff_of_pos hunit).mp (hparts ▸ Int.ediv_nonneg (Int.neg_nonneg_of_nonpos hneg) hd.le)
    rw [← Int.neg_inj, ← Int.neg_tdiv, ← Int.neg_tdiv, Int.tdiv_eq_ediv_of_nonneg hkept, hparts,
      Int.tdiv_eq_ediv_of_nonneg (Int.neg_nonneg_of_nonpos hneg)]

/-! ## Powers of two -/

theorem nearest_mul (t : Int) (bits : Nat) : nearest (t * twoTo bits) bits = t := by
  have hpos : (0 : Int) < twoTo bits := Int.natCast_pos.mpr (twoTo_pos bits)
  unfold nearest
  rw [Int.mul_emod_left, Int.mul_ediv_cancel _ hpos.ne']
  exact if_pos hpos

/-- Zeros behind the significant bits need no rounding. -/
theorem round_mul_twoTo {a} (ha : a.natAbs < twoTo 53) (hc : c ≤ 900) :
    round (a * twoTo c) 0 = .dyadic (a * twoTo c) 0 := by
  have hsize : (a * twoTo c).natAbs < twoTo (53 + c) := by
    rw [Int.natAbs_mul, twoTo_add]
    exact mul_lt_mul_of_pos_right ha (twoTo_pos c)
  by_cases hsmall : (a * twoTo c).natAbs ≤ twoTo 53
  · exact round_whole hsmall
  · have hlog := log2_lt_of_lt (by omega) hsize
    have hlog' : 53 ≤ (a * twoTo c).natAbs.log2 := (Nat.le_log2 (by omega)).mpr (Nat.le_of_lt (Nat.lt_of_not_le hsmall))
    have hlarge : (a * twoTo c).natAbs < twoTo 1024 := hsize.trans_le (twoTo_le (by omega))
    generalize hdrop : (a * twoTo c).natAbs.log2 + 1 - 53 = drop at *
    have hsplit : a * twoTo c = a * twoTo (c - drop) * twoTo drop := by
      rw [show c = c - drop + drop by omega, twoTo_add, Nat.add_sub_cancel, Int.natCast_mul, Int.mul_assoc]
    unfold round
    rw [if_neg fun h => hsmall h.2, hdrop, Nat.zero_sub, Nat.max_zero]
    dsimp only
    rw [if_neg (by omega), Nat.sub_zero, hsplit, nearest_mul, ← hsplit, if_pos hlarge]

theorem exp2_whole {c : Nat} (hc : c ≤ 900) : exp2 (.dyadic c 0) = .dyadic (twoTo c) 0 := by
  have hhigh : le 1024 (.dyadic c 0) = false := by
    rw [show (1024 : Number) = .dyadic 1024 0 from rfl, le_dyadic, decide_eq_false_iff_not]
    omega
  have hlow : le (.dyadic c 0) (ofInt (-1075)) = false := by
    rw [ofInt, le_dyadic, decide_eq_false_iff_not]
    omega
  have hone := round_mul_twoTo (a := 1) (by decide) hc
  rw [Int.one_mul] at hone
  simp only [exp2, hhigh, hlow, Bool.false_eq_true, if_false, if_true]
  rw [one_eq, scaleBy, if_pos (Int.natCast_nonneg c), Int.toNat_natCast, Int.one_mul, hone]

end Number

end Retarget
