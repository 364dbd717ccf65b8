import Mathlib.Algebra.GroupWithZero.Nat
import Mathlib.Data.List.Forall2

/-!
# Stacks of bytes

A stack grows downwards in a memory of 65536 bytes. Bytes that are pushed one by one, the last of a list first,
lie upwards from the top in the order of the list, and what lay above stays as it was.
-/
namespace Retarget

open BitVec List

abbrev Byte := BitVec 8

abbrev Word := BitVec 16

def Word.low (w : Word) : Byte := w.extractLsb' 0 8

def Word.high (w : Word) : Byte := w.extractLsb' 8 8

@[simp] theorem Word.low_append (high low : Byte) : Word.low (high ++ low) = low := extractLsb'_append_eq_right

@[simp] theorem Word.high_append (high low : Byte) : Word.high (high ++ low) = high := extractLsb'_append_eq_left

theorem Word.high_append_low (w : Word) : (w.high ++ w.low : Word) = w := by
  apply eq_of_getLsbD_eq
  intro i hi
  refine (getLsbD_append (x := w.high) (y := w.low)).trans ?_
  simp only [Word.high, Word.low, getLsbD_extractLsb']
  split <;> simp <;> grind

structure Stack where
  /-- The address of the byte that was pushed last. -/
  top : Word
  memory : Word → Byte

namespace Stack

def push (s : Stack) (byte : Byte) : Stack :=
  ⟨s.top - 1#16, fun address => if address = s.top - 1#16 then byte else s.memory address⟩

/-- The stack with bytes on it, the first of them on top. -/
def load (s : Stack) (bytes : List Byte) : Stack := bytes.foldr (fun byte s => s.push byte) s

variable (s : Stack)

@[simp] theorem top_push (byte : Byte) : (s.push byte).top = s.top - 1#16 := rfl

@[simp] theorem memory_push_top (byte : Byte) : (s.push byte).memory (s.top - 1#16) = byte := if_pos rfl

theorem memory_push_of_ne (byte : Byte) (h : address ≠ s.top - 1#16) :
    (s.push byte).memory address = s.memory address := if_neg h

@[simp] theorem load_nil : s.load [] = s := rfl

@[simp] theorem load_cons (byte : Byte) (bytes : List Byte) : s.load (byte :: bytes) = (s.load bytes).push byte := rfl

theorem load_append (bytes bytes' : List Byte) : s.load (bytes ++ bytes') = (s.load bytes').load bytes :=
  foldr_append

theorem top_load (bytes : List Byte) : (s.load bytes).top = s.top - BitVec.ofNat 16 bytes.length := by
  induction bytes with
  | nil => simp
  | cons _ _ ih =>
    rw [load_cons, top_push, ih, length_cons, ofNat_add]
    bv_omega

theorem memory_load_above (bytes : List Byte) (h : distance + bytes.length < 65536) :
    (s.load bytes).memory (s.top + BitVec.ofNat 16 distance) = s.memory (s.top + BitVec.ofNat 16 distance) := by
  induction bytes with
  | nil => rfl
  | cons _ rest ih =>
    rw [length_cons] at h
    have hne : s.top + BitVec.ofNat 16 distance ≠ (s.load rest).top - 1#16 := by
      rw [top_load]
      bv_omega
    rw [load_cons, memory_push_of_ne _ _ hne]
    exact ih (by omega)

theorem memory_load {bytes} (hlen : bytes.length < 65536) (h : bytes[k]? = some byte) :
    (s.load bytes).memory ((s.load bytes).top + BitVec.ofNat 16 k) = byte := by
  induction bytes generalizing k with
  | nil => simp at h
  | cons first rest ih =>
    rw [length_cons] at hlen
    cases k with
    | zero =>
      obtain rfl : first = byte := by simpa using h
      simp
    | succ k =>
      have hk : k < rest.length := by
        obtain ⟨hk, -⟩ := List.getElem?_eq_some_iff.mp h
        simpa using hk
      have haddr : ((s.load rest).push first).top + BitVec.ofNat 16 (k + 1) =
          (s.load rest).top + BitVec.ofNat 16 k := by
        rw [top_push, ofNat_add]
        bv_omega
      have hne : (s.load rest).top + BitVec.ofNat 16 k ≠ (s.load rest).top - 1#16 := by bv_omega
      rw [load_cons, haddr, memory_push_of_ne _ _ hne]
      exact ih (by omega) (by simpa using h)

end Stack

/-- Where an element of one of several lists stands when they are joined. -/
theorem getElem?_flatten {α : Type} {lists : List (List α)} {i k l a} (hl : lists[i]? = some l) (ha : l[k]? = some a) :
    lists.flatten[((lists.take i).map length).sum + k]? = some a := by
  induction lists generalizing i with
  | nil => simp at hl
  | cons first _ ih =>
    cases i with
    | zero =>
      obtain rfl : first = l := by simpa using hl
      obtain ⟨hk, -⟩ := List.getElem?_eq_some_iff.mp ha
      simpa [getElem?_append_left hk] using ha
    | succ =>
      rw [take_succ_cons, map_cons, sum_cons, flatten_cons, Nat.add_assoc,
        getElem?_append_right (by omega), Nat.add_sub_cancel_left]
      exact ih (by simpa using hl)

theorem exists_getElem?_of_forall₂ {α β : Type} {R : α → β → Prop} {as bs} (h : Forall₂ R as bs) {i : Nat} {a}
    (ha : as[i]? = some a) : ∃ b, bs[i]? = some b ∧ R a b := by
  induction h generalizing i with
  | nil => simp at ha
  | cons hab _ ih =>
    cases i with
    | zero =>
      obtain rfl := Option.some.inj ha
      exact ⟨_, rfl, hab⟩
    | succ => exact ih ha

end Retarget
