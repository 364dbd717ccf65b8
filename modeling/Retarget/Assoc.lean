/-!
# Finite maps in insertion order

A map is a list of keys with their values in which every key stands once. Setting a key that is there
keeps its place.
-/
namespace Retarget

abbrev Assoc (α β : Type) := List (α × β)

namespace Assoc

variable {α β : Type} [DecidableEq α]

def get? (key : α) : Assoc α β → Option β
  | [] => none
  | (other, value) :: rest => if other = key then some value else get? key rest

def set (key : α) (value : β) : Assoc α β → Assoc α β
  | [] => [(key, value)]
  | (other, old) :: rest =>
    if other = key then (key, value) :: rest else (other, old) :: set key value rest

def erase (key : α) : Assoc α β → Assoc α β
  | [] => []
  | (other, old) :: rest => if other = key then erase key rest else (other, old) :: erase key rest

/-- The map of a list of pairs, of which a later one wins. -/
def ofPairs (pairs : List (α × β)) : Assoc α β :=
  pairs.foldl (fun map (key, value) => set key value map) []

@[simp] theorem get?_nil (key : α) : get? key ([] : Assoc α β) = none := rfl

theorem get?_set (map : Assoc α β) (key : α) (value : β) (other : α) :
    get? other (set key value map) = if key = other then some value else get? other map := by
  induction map with
  | nil => by_cases h : key = other <;> simp [set, get?, h]
  | cons entry rest ih =>
    obtain ⟨k, v⟩ := entry
    by_cases hk : k = key
    · subst hk
      by_cases h : k = other <;> simp [set, get?, h]
    · by_cases h : k = other
      · subst h
        simp [set, get?, hk, Ne.symm hk]
      · simp [set, get?, hk, h, ih]

theorem get?_erase (map : Assoc α β) (key other : α) :
    get? other (erase key map) = if key = other then none else get? other map := by
  induction map with
  | nil => simp [erase]
  | cons entry rest ih =>
    obtain ⟨k, v⟩ := entry
    by_cases hk : k = key
    · subst hk
      by_cases h : k = other <;> simp_all [erase, get?]
    · by_cases h : k = other
      · subst h
        simp [erase, get?, hk, Ne.symm hk]
      · simp [erase, get?, hk, h, ih]

end Assoc

end Retarget
