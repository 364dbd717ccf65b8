import Mathlib.Algebra.GroupWithZero.Nat
import Retarget.Proofs.Checked
import Retarget.Proofs.Assoc

/-!
# Registers one behind the other

A frame gives every register of a list the bytes behind those of the registers before it. What a register is given
depends only on how many bytes that makes, and a register that comes twice keeps its last place. So places of
different registers never overlap, and all of them together take the sum of the sizes.
-/
namespace Retarget

open List

section
variable {α β : Type} (key : α → Numeral) (locate : Nat → Nat → β)

/-- Enters elements of given sizes, each with what `locate` makes of the bytes that lie before it and of its size. -/
def placeAll : List α → List Nat → Nat → Assoc Numeral β → Assoc Numeral β
  | a :: as, n :: ns, base, map => placeAll as ns (base + n) (map.set (key a) (locate base n))
  | _, _, _, map => map

/-- The element takes so many bytes behind so many others, and no later one has its key. -/
inductive HasPlace : List α → List Nat → α → Nat → Nat → Prop
  | here {a n as ns} (hlast : ∀ b ∈ as, key b ≠ key a) : HasPlace (a :: as) (n :: ns) a 0 n
  | there {a n start b m as ns} : HasPlace as ns a start n → HasPlace (b :: as) (m :: ns) a (m + start) n

end

section
variable {α β : Type} {key : α → Numeral} {locate : Nat → Nat → β} {map : Assoc Numeral β} {as : List α} {ns : List Nat}

theorem get?_placeAll_of_ne (h : ∀ a ∈ as, key a ≠ k) (base : Nat) (map : Assoc Numeral β) :
    (placeAll key locate as ns base map).get? k = map.get? k := by
  induction as generalizing ns base map with
  | nil => rw [placeAll]; nofun
  | cons a as ih =>
    rw [forall_mem_cons] at h
    cases ns with
    | nil => rfl
    | cons => rw [placeAll, ih h.2, Assoc.get?_set, if_neg h.1]

namespace HasPlace

variable {a : α} {start n : Nat} (h : HasPlace key as ns a start n)
include h

theorem get? (base : Nat) (map : Assoc Numeral β) :
    (placeAll key locate as ns base map).get? (key a) = some (locate (base + start) n) := by
  induction h generalizing base map with
  | here hlast => rw [placeAll, get?_placeAll_of_ne hlast, Assoc.get?_set, if_pos rfl, Nat.add_zero]
  | there _ ih => rw [placeAll, ih, Nat.add_assoc]

theorem le_sum : start + n ≤ ns.sum := by
  induction h with
  | here => simp
  | there =>
    rw [sum_cons]
    omega

theorem mem : a ∈ as := by
  induction h with
  | here => exact mem_cons_self
  | there _ ih => exact mem_cons_of_mem _ ih

theorem sized {R : α → Nat → Prop} (hsizes : Forall₂ R as ns) : R a n := by
  induction h with
  | here => exact (forall₂_cons.mp hsizes).1
  | there _ ih => exact ih (forall₂_cons.mp hsizes).2

/-- Places of elements with different keys have no byte in common. -/
theorem apart (h' : HasPlace key as ns a' start' n') (hne : key a ≠ key a') :
    start + n ≤ start' ∨ start' + n' ≤ start := by
  induction h generalizing start' with
  | here =>
    cases h' with
    | here => exact absurd rfl hne
    | there => exact .inl (by omega)
  | there _ ih =>
    cases h' with
    | here => exact .inr (by omega)
    | there h' =>
      rcases ih h' hne with h | h
      · exact .inl (by omega)
      · exact .inr (by omega)

end HasPlace

section
variable (hlen : as.length = ns.length)
include hlen

theorem exists_hasPlace (h : ∃ a ∈ as, key a = k) :
    ∃ a start n, key a = k ∧ HasPlace key as ns a start n := by
  induction as generalizing ns with
  | nil => simp at h
  | cons a as ih =>
    obtain ⟨n, _, rfl⟩ := exists_cons_of_length_eq_add_one hlen.symm
    by_cases hlater : ∃ b ∈ as, key b = k
    · obtain ⟨b, _, m, hkey, hplace⟩ := ih (Nat.succ.inj hlen) hlater
      exact ⟨b, _, m, hkey, .there hplace⟩
    · have hkey : key a = k := by simpa [hlater] using h
      exact ⟨a, 0, n, hkey, .here fun b hb heq => hlater ⟨b, hb, heq.trans hkey⟩⟩

/-- What is found was placed, or was there before. -/
theorem get?_placeAll_cases
    (h : (placeAll key locate as ns base map).get? k = some value) :
    (∃ a start n, HasPlace key as ns a start n ∧ value = locate (base + start) n) ∨ map.get? k = some value := by
  by_cases hkey : ∃ a ∈ as, key a = k
  · obtain ⟨a, start, n, rfl, hplace⟩ := exists_hasPlace hlen hkey
    exact .inl ⟨a, start, n, hplace, Option.some.inj (h.symm.trans (hplace.get? base map))⟩
  · rw [get?_placeAll_of_ne (by simpa using hkey)] at h
    exact .inr h

/-- Where all keys are different, every byte belongs to an element. -/
theorem exists_hasPlace_of_lt (hd : (as.map key).Nodup) (h : byte < ns.sum) :
    ∃ a start n, HasPlace key as ns a start n ∧ start ≤ byte ∧ byte < start + n := by
  induction as generalizing ns byte with
  | nil =>
    obtain rfl := length_eq_zero_iff.mp hlen.symm
    cases h
  | cons a as ih =>
    obtain ⟨n, ns, rfl⟩ := exists_cons_of_length_eq_add_one hlen.symm
    rw [map_cons, nodup_cons] at hd
    rw [sum_cons] at h
    by_cases hfirst : byte < n
    · refine ⟨a, 0, n, .here fun b hb heq => hd.1 (heq ▸ mem_map_of_mem hb), Nat.zero_le _, by omega⟩
    · obtain ⟨b, _, m, hplace, hlow, hhigh⟩ := ih (Nat.succ.inj hlen) hd.2 (by omega : byte - n < ns.sum)
      exact ⟨b, _, m, .there hplace, by omega, by omega⟩

theorem hasPlace_of_getElem? (h : as[i]? = some a)
    (hlast : ∀ b ∈ as.drop (i + 1), key b ≠ key a) : ∃ n, HasPlace key as ns a (ns.take i).sum n := by
  induction as generalizing ns i with
  | nil => simp at h
  | cons b as ih =>
    obtain ⟨n, _, rfl⟩ := exists_cons_of_length_eq_add_one hlen.symm
    cases i with
    | zero =>
      obtain rfl : b = a := by simpa using h
      exact ⟨n, .here (by simpa using hlast)⟩
    | succ =>
      obtain ⟨m, hplace⟩ := ih (Nat.succ.inj hlen) (by simpa using h) (by simpa using hlast)
      exact ⟨m, .there hplace⟩

end

/-- A function that enters elements one by one is `placeAll`, once all sizes are known. -/
theorem eq_placeAll {size : α → Checked Nat} {f : List α → Nat → Assoc Numeral β → Checked (Nat × Assoc Numeral β)}
    (hnil : ∀ base map, f [] base map = .ok (base, map)) (hcons : ∀ a as base map, f (a :: as) base map = (do
      let n ← size a
      f as (base + n) (map.set (key a) (locate base n)))) (as : List α) (base : Nat) (map : Assoc Numeral β) :
    f as base map = (do
      let ns ← as.mapM size
      return (base + ns.sum, placeAll key locate as ns base map)) := by
  induction as generalizing base map with
  | nil => exact hnil base map
  | cons a as ih =>
    rw [hcons, mapM_cons]
    cases size a with
    | error => rfl
    | ok n =>
      show f as (base + n) _ = _
      rw [ih]
      cases as.mapM size with
      | error => rfl
      | ok => simp [placeAll, pure, Except.pure, bind, Except.bind, Nat.add_assoc]

end

end Retarget
