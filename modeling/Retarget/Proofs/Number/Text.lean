import Mathlib.Data.List.DropRight
import Mathlib.Data.List.TakeWhile
import Mathlib.Tactic.NormNum
import Retarget.Numeral
import Retarget.Proofs.Number.Whole

/-!
# Texts of numbers

A number has the fewest digits that read back as it, so different natural numbers have different texts, also
past those that doubles tell apart from their neighbours. Digits, a point, signs and a few letters are all
that occurs in the text of a number.
-/
namespace Retarget

open List Nat String

/-! ## Characters -/

/-- The character is none of those that join the parts of a name. -/
def Text.IsInner (c : Char) : Prop := c ≠ '$' ∧ c ≠ '_'

instance (c : Char) : Decidable (Text.IsInner c) := inferInstanceAs (Decidable (c ≠ '$' ∧ c ≠ '_'))

namespace Text

theorem isInner_of_isDigit {c} (h : c.isDigit = true) : IsInner c := by
  constructor <;> rintro rfl <;> exact absurd h (by decide)

theorem isInner_of_all {text : String} (h : c ∈ text.toList)
    (hall : text.toList.all (fun c => decide (IsInner c)) = true) : IsInner c :=
  of_decide_eq_true (all_eq_true.mp hall c h)

theorem isInner_repr {n : Nat} (h : c ∈ n.repr.toList) : IsInner c := by
  rw [toList_repr] at h
  exact isInner_of_isDigit (isDigit_of_mem_toDigits (by decide) (by decide) h)

/-- A character that does not occur before tells where a text was joined. -/
theorem eq_of_append_cons {c : Char} {before before' behind behind'} (h : c ∉ before) (h' : c ∉ before')
    (heq : before ++ c :: behind = before' ++ c :: behind') : before = before' ∧ behind = behind' := by
  induction before generalizing before' with
  | nil =>
    cases before' with
    | nil => exact ⟨rfl, tail_eq_of_cons_eq heq⟩
    | cons =>
      obtain ⟨rfl, -⟩ := cons_eq_cons.mp heq
      exact absurd mem_cons_self h'
  | cons _ _ ih =>
    cases before' with
    | nil =>
      obtain ⟨rfl, -⟩ := cons_eq_cons.mp heq
      exact absurd mem_cons_self h
    | cons =>
      obtain ⟨rfl, hrest⟩ := cons_eq_cons.mp heq
      obtain ⟨rfl, hbehind⟩ := ih (not_mem_of_not_mem_cons h) (not_mem_of_not_mem_cons h') hrest
      exact ⟨rfl, hbehind⟩

end Text

open Text

namespace Decimal

variable {d : Decimal} {c : Char}

/-- Digits with a point behind the first one, unless it is the only one. -/
def mantissa : List Char → List Char
  | [] => []
  | [digit] => [digit]
  | digit :: rest => digit :: '.' :: rest

/-- The text by the digits that matter and the number of digits before the point. -/
theorem toList_text (d : Decimal) {digits point} (h : d.significant = (digits, point)) :
    d.text.toList =
      if point ≤ 21 ∧ (digits.length : Int) ≤ point then digits ++ List.replicate (point.toNat - digits.length) '0'
      else if 0 < point ∧ point ≤ 21 then digits.take point.toNat ++ '.' :: digits.drop point.toNat
      else if -6 < point ∧ point ≤ 0 then '0' :: '.' :: replicate (-point).toNat '0' ++ digits
      else mantissa digits ++ 'e' :: (if point - 1 < 0 then '-' else '+') :: toDigits 10 (point - 1).natAbs := by
  unfold text
  rw [h]
  dsimp only
  split_ifs
  · exact toList_ofList
  · exact toList_ofList
  · exact toList_ofList
  all_goals
    rw [toList_append, toList_append, Nat.toList_repr, List.append_assoc]
    rcases digits with _ | ⟨_, _ | ⟨_, _⟩⟩
    · rfl
    · simp [mantissa]
    · simp [mantissa]

/-- The digits that stand in a text are those of the number. -/
theorem isDigit_of_mem_significant (h : c ∈ d.significant.1) : c.isDigit = true := by
  have hmem : c ∈ d.digits.repr.toList := mem_reverse.mp ((dropWhile_sublist _).subset (mem_reverse.mp h))
  rw [toList_repr] at hmem
  exact isDigit_of_mem_toDigits (by decide) (by decide) hmem

theorem mem_mantissa {digits} (h : c ∈ mantissa digits) : c ∈ digits ∨ c = '.' := by
  match digits with
  | [] => cases h
  | [digit] => exact Or.inl h
  | digit :: second :: rest =>
    simp only [mantissa, mem_cons] at h ⊢
    tauto

theorem isInner_text (h : c ∈ d.text.toList) : IsInner c := by
  have hdigits : c ∈ d.significant.1 → IsInner c := fun hc => isInner_of_isDigit (isDigit_of_mem_significant hc)
  have hpoint : c = '.' → IsInner c := by rintro rfl; decide
  have hzero : ∀ {k}, c ∈ List.replicate k '0' → IsInner c := by
    intro k hc
    rw [(mem_replicate.mp hc).2]
    decide
  rw [toList_text d rfl] at h
  split_ifs at h
  · exact (mem_append.mp h).elim hdigits hzero
  · rcases mem_append.mp h with h | h
    · exact hdigits (mem_of_mem_take h)
    · exact (mem_cons.mp h).elim hpoint fun h => hdigits (mem_of_mem_drop h)
  · simp only [cons_append, mem_cons, mem_append] at h
    rcases h with rfl | h | h | h
    · decide
    · exact hpoint h
    · exact hzero h
    · exact hdigits h
  all_goals
    simp only [mem_append, mem_cons] at h
    rcases h with h | rfl | rfl | h
    · exact (mem_mantissa h).elim hdigits hpoint
    · decide
    · decide
    · exact isInner_of_isDigit (isDigit_of_mem_toDigits (by decide) (by decide) h)

/-! ## Whole decimals -/

theorem toDigits_mul_ten (h : 0 < n) : toDigits 10 (n * 10) = toDigits 10 n ++ ['0'] := by
  rw [mul_comm, ← add_zero (10 * n), ← toDigits_append_toDigits (by decide) h (by decide)]
  rfl

theorem toDigits_mul_tenTo (h : 0 < n) (k : Nat) :
    Nat.toDigits 10 (n * tenTo k) = Nat.toDigits 10 n ++ List.replicate k '0' := by
  induction k with
  | zero => simp [tenTo]
  | succ k ih =>
    have hpos : 0 < n * tenTo k := Nat.mul_pos h (Nat.pow_pos (by decide))
    have hsucc : n * tenTo (k + 1) = n * tenTo k * 10 := by rw [tenTo, pow_eq, pow_succ, ← mul_assoc]; rfl
    rw [hsucc, toDigits_mul_ten hpos, ih, List.append_assoc, replicate_succ']

/-- A decimal without a fraction is written as the number that it is. -/
theorem significant_whole (h : 0 < n) (k : Nat) : significant ⟨n, k⟩ = significant ⟨n * tenTo k, 0⟩ := by
  unfold significant
  simp only [Nat.toList_repr, toDigits_mul_tenTo h, reverse_append, reverse_replicate, List.length_append,
    List.length_replicate]
  rw [dropWhile_append_of_pos (by simp)]
  simp

theorem text_whole (h : 0 < n) (k : Nat) : text ⟨n, k⟩ = text ⟨n * tenTo k, 0⟩ := by
  unfold text
  rw [significant_whole h]

/-- The zeros at the end are all that the digits which matter leave out. -/
theorem toDigits_eq_significant (n : Nat) :
    toDigits 10 n = (significant ⟨n, 0⟩).1 ++
      List.replicate ((Nat.toDigits 10 n).length - (significant ⟨n, 0⟩).1.length) '0' := by
  have hsplit := takeWhile_append_dropWhile (p := (· == '0')) (l := (toDigits 10 n).reverse)
  have hzeros : ∀ c ∈ (toDigits 10 n).reverse.takeWhile (· == '0'), c = '0' := fun c hc => by
    simpa using mem_takeWhile_imp hc
  have hdigits : toDigits 10 n = (significant ⟨n, 0⟩).1 ++
      ((toDigits 10 n).reverse.takeWhile (· == '0')).reverse := by
    conv => lhs; rw [← reverse_reverse (toDigits 10 n), ← hsplit, reverse_append]
    simp only [significant, toList_repr]
  have hlength := congrArg List.length hdigits
  rw [List.length_append] at hlength
  conv => lhs; rw [hdigits]
  rw [append_cancel_left_eq, eq_replicate_iff]
  exact ⟨by omega, fun c hc => hzeros c (mem_reverse.mp hc)⟩

theorem mantissa_injective {digits digits'} (h : mantissa digits = mantissa digits') : digits = digits' := by
  match digits, digits' with
  | [], [] => rfl
  | [], [_] | [_], [] => cases h
  | [], _ :: _ :: _ | _ :: _ :: _, [] => cases h
  | [_], [_] => exact h
  | [_], _ :: _ :: _ | _ :: _ :: _, [_] => simp [mantissa] at h
  | _ :: _ :: _, _ :: _ :: _ => simpa [mantissa] using h

theorem toDigits_injective (h : toDigits 10 n = toDigits 10 m) : n = m := by
  rw [← ofDigitChars_ten_toDigits (n := n), h, ofDigitChars_ten_toDigits]

/-- A whole decimal is written out, or in powers of ten if it has more than 21 digits. -/
theorem toList_text_whole (n : Nat) :
    (text ⟨n, 0⟩).toList =
      if (toDigits 10 n).length ≤ 21 then toDigits 10 n
      else mantissa (significant ⟨n, 0⟩).1 ++ 'e' :: '+' :: toDigits 10 ((toDigits 10 n).length - 1) := by
  have hsignificant : significant ⟨n, 0⟩ = ((significant ⟨n, 0⟩).1, ((toDigits 10 n).length : Int)) :=
    Prod.ext rfl (by simp [significant, toList_repr])
  have hle : (significant ⟨n, 0⟩).1.length ≤ (toDigits 10 n).length := by
    have := congrArg List.length (toDigits_eq_significant n)
    rw [List.length_append] at this
    omega
  rw [toList_text _ hsignificant]
  by_cases h : (toDigits 10 n).length ≤ 21
  · rw [if_pos ⟨by omega, by omega⟩, if_pos h, Int.toNat_natCast, ← toDigits_eq_significant]
  · rw [if_neg (by omega), if_neg (by omega), if_neg (by omega), if_neg h, if_neg (by omega)]
    congr 4
    omega

theorem text_whole_injective {n m} (h : text ⟨n, 0⟩ = text ⟨m, 0⟩) : n = m := by
  have hplain : ∀ n, 'e' ∉ toDigits 10 n := fun n hmem =>
    absurd (isDigit_of_mem_toDigits (by decide) (by decide) hmem) (by decide)
  have hmantissa : ∀ n, 'e' ∉ mantissa (significant ⟨n, 0⟩).1 := fun n hmem =>
    (mem_mantissa hmem).elim (fun hmem => absurd (isDigit_of_mem_significant hmem) (by decide)) (by decide)
  have hlist := congrArg toList h
  rw [toList_text_whole, toList_text_whole] at hlist
  split_ifs at hlist with hn hm hm
  · exact toDigits_injective hlist
  · exact absurd (hlist ▸ mem_append_right _ mem_cons_self) (hplain n)
  · exact absurd (hlist ▸ mem_append_right _ mem_cons_self) (hplain m)
  · obtain ⟨hdigits, hexponent⟩ := eq_of_append_cons (hmantissa n) (hmantissa m) hlist
    have hlength := toDigits_injective (cons_eq_cons.mp hexponent).2
    have hsame : (toDigits 10 n).length = (toDigits 10 m).length := by omega
    apply toDigits_injective
    rw [toDigits_eq_significant n, toDigits_eq_significant m, mantissa_injective hdigits, hsame]

/-! ## Natural numbers -/

/-- What is found on a grid reads back. -/
theorem of_ofGrid? {n scale exponent} (h : ofGrid? n scale exponent = some d) :
    d.exponent = exponent ∧ d.toNumber = .dyadic n scale := by
  have hpick : ∀ candidates : Nat × Nat,
      (if (toNumber ⟨candidates.1, exponent⟩ == .dyadic n scale) = true then some (⟨candidates.1, exponent⟩ : Decimal)
        else if (toNumber ⟨candidates.2, exponent⟩ == .dyadic n scale) = true then some ⟨candidates.2, exponent⟩
        else none) = some d → d.exponent = exponent ∧ d.toNumber = .dyadic n scale := by
    intro _ h
    split_ifs at h with hfirst hsecond
    · cases h
      exact ⟨rfl, by simpa using hfirst⟩
    · cases h
      exact ⟨rfl, by simpa using hsecond⟩
  exact hpick _ h

theorem of_toNumber {digits exponent n : Nat} (hn : n ≠ 0) (h : toNumber ⟨digits, exponent⟩ = .dyadic n 0) :
    0 < digits ∧ Number.round (digits * tenTo exponent : Nat) 0 = .dyadic n 0 := by
  unfold toNumber at h
  dsimp only at h
  split_ifs at h with hzero hreach hwhole
  · injection h with hnumerator
    exact absurd (by exact_mod_cast hnumerator.symm) hn
  · refine ⟨by omega, ?_⟩
    rw [← h]
    simp
  · omega

/-- A double with few enough digits is found among the whole numbers. -/
theorem ofGrid?_zero {n : Nat} (hpos : 0 < n) (hlen : n.repr.length ≤ reach)
    (hdouble : Number.round n 0 = .dyadic n 0) : ofGrid? n 0 0 = some ⟨n, 0⟩ := by
  have hreads : toNumber ⟨n, 0⟩ = .dyadic n 0 := by
    unfold toNumber
    dsimp only
    rw [if_neg (by omega), if_neg (by omega), if_pos (Int.le_refl 0)]
    simpa [tenTo] using hdouble
  unfold ofGrid?
  simp [twoTo, tenTo, mod_one, hreads]

/-- A number past those that doubles tell apart from their neighbours has a whole decimal that rounds to it. -/
theorem shortest_whole {n : Nat} (hlarge : twoTo 53 < n) (hdouble : Number.round n 0 = .dyadic n 0) :
    ∃ digits exponent : Nat, 0 < digits ∧ shortest n 0 = ⟨digits, exponent⟩ ∧
      Number.round (digits * tenTo exponent : Nat) 0 = .dyadic n 0 := by
  have hpos : 0 < n := by omega
  have hplaces : magnitude n 0 = (n.repr.length : Int) := by simp [magnitude, twoTo, hpos]
  have hdigits : 16 ≤ n.repr.length := by
    have hiff := length_toDigits_le_iff (b := 10) (n := n) (k := 15) (by decide) (by decide)
    have hlarge : 10 ^ 15 ≤ n := le_trans (by decide) (le_of_lt hlarge)
    rw [← length_toList, toList_repr]
    omega
  unfold shortest
  dsimp only
  rw [hplaces]
  cases hfound : (range 17).findSome? fun more : Nat => ofGrid? n 0 ((n.repr.length : Int) - (more + 1)) with
  | none => exact ⟨n, 0, hpos, rfl, by simpa [tenTo] using hdouble⟩
  | some d =>
    obtain ⟨before, more, behind, hrange, hgrid, hnone⟩ := findSome?_eq_some_iff.mp hfound
    obtain ⟨hexponent, hreads⟩ := of_ofGrid? hgrid
    have hplace : ∀ k, k ≤ before.length → k < 17 ∧ (before ++ more :: behind)[k]? = some k := by
      intro k hk
      have hlength := congrArg List.length hrange
      simp only [length_range, List.length_append, length_cons] at hlength
      rw [← hrange, getElem?_range (by omega)]
      exact ⟨by omega, rfl⟩
    obtain ⟨hlt, hmore⟩ := hplace before.length (le_refl _)
    obtain rfl : before.length = more := by simpa [eq_comm] using hmore
    -- sixteen digits are enough for a number that has no more
    have hle : before.length + 1 ≤ n.repr.length := by
      by_contra hshort
      have hmem : 15 ∈ before := by
        have hfifteen := (hplace 15 (by omega)).2
        rw [getElem?_append_left (by omega)] at hfifteen
        exact mem_of_getElem? hfifteen
      have hgrid := hnone 15 hmem
      have hzero : (n.repr.length : Int) - ((15 : Nat) + 1) = 0 := by omega
      have hreach : n.repr.length ≤ reach := by unfold reach; omega
      rw [hzero, ofGrid?_zero hpos hreach hdouble] at hgrid
      cases hgrid
    obtain ⟨exponent, hnatural⟩ : ∃ exponent : Nat, d.exponent = exponent :=
      ⟨n.repr.length - (before.length + 1), by rw [hexponent]; omega⟩
    obtain ⟨digits, _⟩ := d
    obtain rfl := hnatural
    obtain ⟨hdigits, hround⟩ := of_toNumber (by omega) hreads
    exact ⟨digits, exponent, hdigits, rfl, hround⟩

end Decimal

namespace Number

theorem isInner_text {x : Number} (h : c ∈ x.text.toList) : IsInner c := by
  cases x with
  | dyadic n =>
    simp only [text] at h
    split_ifs at h
    · cases n with
      | ofNat => exact isInner_repr h
      | negSucc n =>
        have hrepr : (Int.negSucc n).repr.toList = '-' :: (n + 1).repr.toList := by
          simp [Int.repr, toList_append]
        rw [hrepr] at h
        rcases mem_cons.mp h with rfl | h
        · decide
        · exact isInner_repr h
    · rw [toList_append] at h
      rcases mem_append.mp h with h | h
      · exact isInner_of_all h (by decide)
      · exact Decimal.isInner_text h
    · rw [empty_append] at h
      exact Decimal.isInner_text h
  | infinite negative => cases negative <;> exact isInner_of_all h (by decide)
  | nan => exact isInner_of_all h (by decide)

end Number

namespace Numeral

theorem isInner_text {x : Numeral} (h : c ∈ x.text.toList) : IsInner c := by
  cases x with
  | natural => exact isInner_repr h
  | other => exact Number.isInner_text h
  | minusZero => exact isInner_of_all h (by decide)

/-- The numeral is that of a natural number, which has to be a double. -/
def IsNatural (x : Numeral) : Prop :=
  ∃ n : Nat, Number.round n 0 = .dyadic n 0 ∧ x = .ofNumber (.dyadic n 0)

/-- The text of a natural number is that of a whole decimal that rounds to it. -/
theorem text_ofNumber {n : Nat} (h : Number.round n 0 = .dyadic n 0) :
    ∃ whole : Nat, (Numeral.ofNumber (.dyadic n 0)).text = Decimal.text ⟨whole, 0⟩ ∧
      Number.round whole 0 = .dyadic n 0 := by
  have hofNumber : Numeral.ofNumber (.dyadic n 0) = if n ≤ twoTo 53 then .natural n else .other (.dyadic n 0) := by
    simp [ofNumber, Number.toIndex?]
  rw [hofNumber]
  by_cases hsmall : n ≤ twoTo 53
  · refine ⟨n, ?_, h⟩
    have hlen : (toDigits 10 n).length ≤ 21 :=
      (length_toDigits_le_iff (by decide) (by decide)).mpr (lt_of_le_of_lt hsmall (by decide))
    rw [if_pos hsmall]
    apply String.ext
    rw [Decimal.toList_text_whole, if_pos hlen]
    exact toList_repr
  · obtain ⟨digits, exponent, hpos, hshortest, hround⟩ := Decimal.shortest_whole (by omega) h
    refine ⟨digits * tenTo exponent, ?_, hround⟩
    rw [if_neg hsmall, ← Decimal.text_whole hpos, ← hshortest]
    simp [text, Number.text, hsmall]

theorem IsNatural.text_injective {x y : Numeral} (hx : x.IsNatural) (hy : y.IsNatural) (h : x.text = y.text) :
    x = y := by
  obtain ⟨n, hn, rfl⟩ := hx
  obtain ⟨m, hm, rfl⟩ := hy
  obtain ⟨_, htext, hround⟩ := text_ofNumber hn
  obtain ⟨_, htext', hround'⟩ := text_ofNumber hm
  rw [htext, htext'] at h
  obtain rfl := Decimal.text_whole_injective h
  rw [← hround, hround']

end Numeral

end Retarget
