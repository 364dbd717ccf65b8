import Mathlib.Data.List.Nodup
import Retarget.Assoc

/-!
# Maps of lists of pairs

What is found in the map of a list of pairs. A key that stands twice has its later value.
-/
namespace Retarget

open List

namespace Assoc

variable {α β : Type} [DecidableEq α]

theorem get?_foldl_of_not_mem (pairs : List (α × β)) (map : Assoc α β) (h : key ∉ pairs.map Prod.fst) :
    (pairs.foldl (fun map pair => set pair.1 pair.2 map) map).get? key = map.get? key := by
  induction pairs generalizing map with
  | nil => rfl
  | cons _ _ ih =>
    simp only [map_cons, mem_cons, not_or] at h
    rw [foldl_cons, ih _ h.2, get?_set, if_neg (Ne.symm h.1)]

/-- Every pair of a list of pairs with distinct keys is found once they are all set. -/
theorem get?_foldl_of_mem {pairs : List (α × β)} (hd : (pairs.map Prod.fst).Nodup) {key : α} {value : β}
    (h : (key, value) ∈ pairs)
    (map : Assoc α β) : (pairs.foldl (fun map pair => set pair.1 pair.2 map) map).get? key = some value := by
  induction pairs generalizing map with
  | nil => cases h
  | cons _ _ ih =>
    rw [map_cons, nodup_cons] at hd
    rw [foldl_cons]
    rcases mem_cons.mp h with rfl | h
    · rw [get?_foldl_of_not_mem _ _ hd.1, get?_set, if_pos rfl]
    · exact ih hd.2 h _

theorem get?_ofPairs {pairs} (hd : (pairs.map Prod.fst).Nodup) {key : α} {value : β} (h : (key, value) ∈ pairs) :
    (ofPairs pairs).get? key = some value := get?_foldl_of_mem hd h []

theorem mem_of_get?_ofPairs {pairs} {key : α} {value : β} (h : (ofPairs pairs).get? key = some value) :
    (key, value) ∈ pairs := by
  have aux : ∀ (pairs : List (α × β)) (map : Assoc α β),
      (pairs.foldl (fun map pair => set pair.1 pair.2 map) map).get? key = some value →
      (key, value) ∈ pairs ∨ map.get? key = some value := by
    intro pairs
    induction pairs with
    | nil => exact fun map h => Or.inr h
    | cons _ _ ih =>
      intro _ h
      rcases ih _ h with h | h
      · exact Or.inl (.tail _ h)
      · rw [get?_set] at h
        split at h
        · rename_i hk
          cases h
          exact Or.inl (by rw [← hk]; exact .head _)
        · exact Or.inr h
  rcases aux pairs [] h with h | h
  · exact h
  · cases h

theorem exists_get?_ofPairs {pairs : List (α × β)} (h : key ∈ pairs.map Prod.fst) :
    ∃ value, (ofPairs pairs).get? key = some value := by
  have aux : ∀ (pairs : List (α × β)) (map : Assoc α β),
      key ∈ pairs.map Prod.fst ∨ (∃ value, map.get? key = some value) →
      ∃ value, (pairs.foldl (fun map pair => set pair.1 pair.2 map) map).get? key = some value := by
    intro pairs
    induction pairs with
    | nil => simp
    | cons pair _ ih =>
      intro _ hkey
      refine ih _ ?_
      rw [get?_set]
      by_cases hk : pair.1 = key
      · exact Or.inr ⟨pair.2, if_pos hk⟩
      · rw [if_neg hk]
        simpa [Ne.symm hk] using hkey
  exact aux pairs [] (Or.inl h)

end Assoc

end Retarget
