import Mathlib.Data.List.Basic
import Retarget.Text

/-!
# Texts in the basic plane

A character of the basic plane is one code unit, any other two. So a text has as many units as characters exactly
if all of it is in the basic plane.
-/
namespace Retarget.Text

open List

/-- All characters are in the basic plane. -/
def IsBasic (s : String) : Prop := ∀ c ∈ s.toList, c.toNat < 0x10000

theorem firstUnits_of_isBasic (h : IsBasic s) : firstUnits s = s.toList.map (·.toNat.toUInt16) := by
  rw [firstUnits, map_eq_flatMap]
  exact flatMap_congr fun c hc => by rw [charUnits, if_pos (h c hc), take_succ_cons, take_nil]

theorem units_of_isBasic (h : IsBasic s) : units s = firstUnits s := by
  rw [firstUnits_of_isBasic h, units, map_eq_flatMap]
  exact flatMap_congr fun c hc => by rw [charUnits, if_pos (h c hc)]

theorem length_firstUnits (s : String) : (firstUnits s).length = s.toList.length := by
  have hone : ∀ c, ((charUnits c).take 1).length = 1 := by
    intro c
    unfold charUnits
    split <;> rfl
  rw [firstUnits, length_flatMap]
  simp [hone]

/-- Characters outside the basic plane count twice. -/
theorem length_eq (s : String) : length s = s.toList.length + s.toList.countP (0x10000 ≤ ·.toNat) := by
  unfold length units
  induction s.toList with
  | nil => rfl
  | cons c _ ih =>
    rw [flatMap_cons, length_append, ih, countP_cons, length_cons, charUnits]
    by_cases hc : c.toNat < 0x10000
    · simp [hc, Nat.not_le.mpr hc]
      omega
    · simp [hc, Nat.not_lt.mp hc]
      omega

theorem length_eq_iff (s : String) : length s = (firstUnits s).length ↔ IsBasic s := by
  rw [length_eq, length_firstUnits, Nat.add_eq_left, countP_eq_zero]
  simp [IsBasic]

end Retarget.Text
