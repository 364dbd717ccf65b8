import Retarget.Proofs.Emit.Data
import Retarget.Run.Arithmetic

/-!
# Conversions that are copies

A conversion between integers stored in equally many bytes is written as a copy, unless it is one to 24 bits. The
bytes of a value depend on its remainder only, and that is what wrapping around at the full width of the storage keeps
(`isBitPreserving_copies`).
-/
namespace Retarget

open Int List Number

theorem evaluateConversion_integer {bits} (hbits : IsWidth bits) (signed : Bool) {signed'}
    (h : (Ty.integer width signed').Holds n) :
    evaluateConversion (.dyadic n 0) (.integer width signed') (.integer bits signed) =
      .ok (.dyadic (wrapInt bits signed n) 0) := by
  have hsize := h.natAbs_le
  rw [twoTo_32] at hsize
  have hone : (dyadic n 0).mul (.twoPow 0) = .dyadic n 0 := by
    rw [show twoPow 0 = .dyadic 1 0 from rfl, mul_dyadic, mul_one, round_whole (by rw [twoTo_53]; omega)]
  rw [← Ty.wrapTo_dyadic hbits, ← Ty.wrap_integer]
  exact congrArg (Ty.wrap _) hone

/-- Wrapping around at the width of the storage keeps the bytes. -/
theorem bytesOf_wrapInt (h : IsSize size) (signed : Bool) (n : Int) :
    bytesOf (.dyadic (wrapInt (8 * size) signed n) 0) (.ofNat size) = bytesOf (.dyadic n 0) (.ofNat size) := by
  have hrest : wrapInt (8 * size) signed n % ((256 ^ size : Nat) : Int) = n % ((256 ^ size : Nat) : Int) := by
    rw [show 256 ^ size = twoTo (8 * size) by rw [twoTo, Nat.pow_eq, Nat.pow_mul]]
    unfold wrapInt
    dsimp only
    split
    · rw [sub_emod_right, emod_emod]
    · exact emod_emod _ _
  rw [bytesOf_dyadic h, bytesOf_dyadic h, hrest]

namespace Ty

theorem storageBytes_of_isRegister (type : Ty) (h : type.IsRegister) (hp : type.isPointer = false)
    (pointerBits : Number) :
    type.storageBytes pointerBits = .ok (.ofNat type.storedBytes) := by
  cases type with
  | integer => rcases h with rfl | rfl | rfl | rfl <;> rfl
  | fixed encoding => cases encoding <;> rfl
  | boolean => rfl
  | pointer => cases hp
  | _ => exact h.elim

/-- Only values that are narrower than their storage have bits beyond those that count. -/
theorem wrapInt_toStored {type : Ty} (hbits : bits ≤ 8 * type.storedBytes) (signed : Bool) (n : Int) :
    wrapInt bits signed (type.toStored n) = wrapInt bits signed n := by
  have hdvd : (twoTo bits : Int) ∣ ((256 ^ type.storedBytes : Nat) : Int) := by
    rw [natCast_dvd_natCast, twoTo, Nat.pow_eq, show 256 = 2 ^ 8 from rfl, ← Nat.pow_mul]
    exact Nat.pow_dvd_pow 2 hbits
  have hpos : 0 < 256 ^ type.storedBytes := Nat.pow_pos (by decide)
  rw [toStored, toNat_of_nonneg (emod_nonneg _ (by omega))]
  unfold wrapInt
  rw [emod_emod_of_dvd _ hdvd]

/-- What is stored for a value wraps around to it. -/
theorem wrap_toStored {type : Ty} (h : type.Holds n) : type.wrap (.ofNat (type.toStored n)) = .ok (.dyadic n 0) := by
  rw [ofNat_eq]
  cases type with
  | integer bits =>
    have hbits : bits ≤ 8 * (integerStorage bits / 8) := by rcases h.1 with rfl | rfl | rfl | rfl <;> decide
    rw [wrap_integer, wrapTo_dyadic h.1, wrapInt_toStored hbits, wrapInt_of_inWidth h.1 h.2]
  | fixed e =>
    have hbits : e.usedBits ≤ 8 * (fixed e).storedBytes := by cases e <;> decide
    rw [wrap_fixed, wrapTo_dyadic e.isWidth_usedBits, wrapInt_toStored hbits, wrapInt_of_inWidth e.isWidth_usedBits h]
  | boolean => rcases h with rfl | rfl <;> rfl
  | _ => exact h.elim

/-- Copies are made between integers only, and to those that fill their storage. -/
theorem integers_of_isBitPreserving {source target : Ty} (h : isBitPreserving source target = true)
    (hv : source.Holds n) :
    ∃ width signed bits signed', source = .integer width signed ∧ target = .integer bits signed' ∧
      IsWidth bits ∧ bits = 8 * source.storedBytes ∧ target.storedBytes = source.storedBytes := by
  unfold isBitPreserving at h
  split at h
  · exact hv.elim
  · rename_i width signed bits signed'
    simp only [Bool.and_eq_true, beq_iff_eq, bne_iff_ne] at h
    obtain ⟨hsame, hne⟩ := h
    have hwidth : IsWidth bits ∧ bits = 8 * (integerStorage width / 8) := by
      rw [hsame, integerStorage, if_neg hne]
      rw [integerStorage, integerStorage, if_neg hne] at hsame
      subst hsame
      rcases hv.1 with rfl | rfl | rfl | rfl <;> decide
    exact ⟨width, signed, bits, signed', rfl, rfl, hwidth.1, hwidth.2, by rw [storedBytes, storedBytes, hsame]⟩
  · cases h

end Ty

/-- A conversion that is written as a copy leaves the bytes of every value alone. And bytes stand for one value only:
joined again, they wrap around to it. -/
theorem isBitPreserving_copies (pointerBits : Number) :
    (∀ source target : Ty, isBitPreserving source target = true → ∀ v, source.Holds v →
      ∃ size converted, source.storageBytes pointerBits = .ok size ∧ target.storageBytes pointerBits = .ok size ∧
        evaluateConversion (.dyadic v 0) source target = .ok converted ∧
        bytesOf converted size = bytesOf (.dyadic v 0) size) ∧
    ∀ type : Ty, type.IsRegister → type.isPointer = false →
      ∃ size : Nat, type.storageBytes pointerBits = .ok (.ofNat size) ∧
        (∀ v w, type.Holds v → type.Holds w →
          bytesOf (.dyadic v 0) (.ofNat size) = bytesOf (.dyadic w 0) (.ofNat size) → v = w) ∧
        ∀ v, type.Holds v → ∃ bytes : List Nat, bytesOf (.dyadic v 0) (.ofNat size) = bytes.map .ofNat ∧
          bytes.length = size ∧ (∀ byte ∈ bytes, byte < 256) ∧
          type.wrap (.ofNat (Nat.ofDigits 256 bytes)) = .ok (.dyadic v 0) := by
  constructor
  · intro _ _ hcopy v hv
    obtain ⟨width, signed, bits, signed', rfl, rfl, hbits, hfull, hsame⟩ := Ty.integers_of_isBitPreserving hcopy hv
    refine ⟨_, _, Ty.storageBytes_of_isRegister (.integer width signed) hv.1 rfl _, ?_,
      evaluateConversion_integer hbits signed' hv, ?_⟩
    · rw [Ty.storageBytes_of_isRegister (.integer bits signed') hbits rfl, hsame]
    · rw [hfull]
      exact bytesOf_wrapInt (Ty.isSize_storedBytes hv) signed' v
  · intro type htype hp
    have hbytes : ∀ v, type.Holds v → bytesOf (.dyadic v 0) (.ofNat type.storedBytes) =
        (lowBytes type.storedBytes (type.toStored v)).map .ofNat := fun v hv =>
      bytesOf_dyadic (Ty.isSize_storedBytes hv) v
    have hdigits : ∀ v, Nat.ofDigits 256 (lowBytes type.storedBytes (type.toStored v)) = type.toStored v := fun v => by
      rw [ofDigits_lowBytes, Nat.mod_eq_of_lt (type.toStored_lt v)]
    refine ⟨_, Ty.storageBytes_of_isRegister type htype hp _, fun v w hv hw heq => ?_, fun v hv => ?_⟩
    · have hinj : Function.Injective Number.ofNat := fun a b h => by simpa [Number.ofNat] using h
      rw [hbytes v hv, hbytes w hw] at heq
      have hsame := congrArg (Nat.ofDigits 256) (map_injective_iff.mpr hinj heq)
      rw [hdigits, hdigits] at hsame
      rw [← Ty.ofStored_toStored hv, hsame, Ty.ofStored_toStored hw]
    · exact ⟨_, hbytes v hv, length_lowBytes _ _, fun _ => lt_of_mem_lowBytes, by rw [hdigits, Ty.wrap_toStored hv]⟩

/-- A negative number of 24 bits fills four bytes with its sign, as the number of 32 bits without a sign does that it is
converted to. -/
theorem negative_copied : isBitPreserving (.integer 24 true) (.integer 32 false) = true ∧
    (Ty.integer 24 true).Holds (-2) ∧ (∃ size converted, (Ty.integer 24 true).storageBytes 16 = .ok size ∧
    (Ty.integer 32 false).storageBytes 16 = .ok size ∧
    evaluateConversion (.dyadic (-2) 0) (.integer 24 true) (.integer 32 false) = .ok converted ∧
    bytesOf converted size = bytesOf (.dyadic (-2) 0) size) ∧
    bytesOf (.dyadic (-2) 0) 4 = [254, 255, 255, 255] ∧
    ∃ size : Nat, (Ty.integer 24 true).storageBytes 16 = .ok (.ofNat size) ∧
      ∃ bytes : List Nat, bytesOf (.dyadic (-2) 0) (.ofNat size) = bytes.map .ofNat ∧ bytes.length = size := by
  obtain ⟨size, hsize, -, hbytes⟩ := (isBitPreserving_copies 16).2 (.integer 24 true) (by decide) rfl
  obtain ⟨bytes, heq, hlength, -⟩ := hbytes (-2) (by decide)
  exact ⟨rfl, by decide, (isBitPreserving_copies 16).1 _ _ rfl (-2) (by decide), by decide, size, hsize, bytes, heq,
    hlength⟩

end Retarget
