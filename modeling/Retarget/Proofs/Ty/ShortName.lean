import Retarget.Proofs.Checked
import Retarget.Proofs.Number.Text

/-!
# Short names

The short name of a type tells it from every other one: its first character is that of a kind of type, and the
length of an array ends at the first underscore. No short name has a dollar sign, which is left to join them.
-/
namespace Retarget

open Text

namespace Ty

/-- No parameter occurs in the type, it is known all through, and the lengths of its arrays are natural
numbers. -/
def IsPlain : Ty → Prop
  | .pointer inner => inner.IsPlain
  | .array of length => of.IsPlain ∧ length.IsNatural
  | .parameter _ | .unknown _ => False
  | _ => True

/-- The type is of a known kind all through. -/
def IsKnown : Ty → Prop
  | .pointer inner => inner.IsKnown
  | .array of _ => of.IsKnown
  | .unknown _ => False
  | _ => True

variable {a b : Ty} {name : String}

theorem IsPlain.exists_shortName (h : a.IsPlain) : ∃ name, a.shortName = .ok name := by
  induction a with
  | pointer _ ih =>
    obtain ⟨_, hname⟩ := ih h
    exact ⟨_, by rw [shortName, hname]; rfl⟩
  | array of _ ih =>
    obtain ⟨_, hname⟩ := ih h.1
    exact ⟨_, by rw [shortName, hname]; rfl⟩
  | parameter | unknown => exact h.elim
  | _ => exact ⟨_, rfl⟩

theorem shortName_pointer (h : (pointer a).shortName = .ok name) :
    ∃ rest, a.shortName = .ok rest ∧ name.toList = 'p' :: '_' :: rest.toList := by
  obtain ⟨rest, hrest, h⟩ := Checked.bind_eq_ok.mp h
  cases h
  exact ⟨rest, hrest, String.toList_append⟩

theorem shortName_array {length} (h : (array a length).shortName = .ok name) :
    ∃ rest, a.shortName = .ok rest ∧ name.toList = 'a' :: (length.text.toList ++ '_' :: rest.toList) := by
  obtain ⟨rest, hrest, h⟩ := Checked.bind_eq_ok.mp h
  cases h
  exact ⟨rest, hrest, by simp [String.toList_append]⟩

theorem shortName_integer (h : (integer bits signed).shortName = .ok name) :
    name.toList = (if signed then 'i' else 'u') :: bits.repr.toList := by
  cases h
  cases signed <;> rw [String.toList_append] <;> rfl

/-- No type has a dollar sign in its short name, whatever the lengths of its arrays. -/
theorem dollar_not_mem_shortName (h : a.shortName = .ok name) : '$' ∉ name.toList := by
  induction a generalizing name with
  | integer _ signed =>
    rw [shortName_integer h, List.mem_cons, not_or]
    exact ⟨by cases signed <;> decide, fun hmem => (isInner_repr hmem).1 rfl⟩
  | fixed encoding =>
    cases h
    cases encoding <;> decide
  | pointer _ ih =>
    obtain ⟨_, hrest, hname⟩ := shortName_pointer h
    simpa [hname] using ih hrest
  | array of length ih =>
    obtain ⟨_, hrest, hname⟩ := shortName_array h
    have hlength : '$' ∉ length.text.toList := fun hmem => (Numeral.isInner_text hmem).1 rfl
    simpa [hname, hlength] using ih hrest
  | parameter | unknown => cases h
  | _ =>
    cases h
    decide

/-- The first character of the short name. -/
def initial : Ty → Char
  | .integer _ signed => if signed then 'i' else 'u'
  | .fixed _ => 'f'
  | .boolean => 'b'
  | .void => 'v'
  | .string => 'S'
  | .pointer _ => 'p'
  | .array _ _ => 'a'
  | .parameter _ | .unknown _ => ' '

theorem head?_shortName (h : a.shortName = .ok name) : name.toList.head? = some a.initial := by
  cases a with
  | integer => rw [shortName_integer h]; rfl
  | fixed encoding =>
    cases h
    cases encoding <;> decide
  | pointer =>
    obtain ⟨_, -, hname⟩ := shortName_pointer h
    rw [hname]; rfl
  | array =>
    obtain ⟨_, -, hname⟩ := shortName_array h
    rw [hname]; rfl
  | parameter | unknown => cases h
  | _ =>
    cases h
    decide

theorem shortName_injective (ha : a.IsPlain) (hb : b.IsPlain) (h : a.shortName = .ok name)
    (h' : b.shortName = .ok name) : a = b := by
  have hinitial : ∀ {a b : Ty} {name}, a.shortName = .ok name → b.shortName = .ok name → a.initial = b.initial :=
    fun h h' => Option.some.inj ((head?_shortName h).symm.trans (head?_shortName h'))
  induction a generalizing b name with
  | integer bits signed =>
    have hkind := hinitial h h'
    cases b with
    | integer bits' signed' =>
      have hname := (shortName_integer h).symm.trans (shortName_integer h')
      obtain ⟨hsigned, hbits⟩ := List.cons_eq_cons.mp hname
      have hbits : bits = bits' := Decimal.toDigits_injective (by simpa only [Nat.toList_repr] using hbits)
      cases signed <;> cases signed' <;> simp_all
    | _ => cases signed <;> simp [initial] at hkind hb
  | fixed encoding =>
    have hkind := hinitial h h'
    cases b with
    | fixed encoding' =>
      rw [shortName] at h h'
      have hname : encoding.shortName = encoding'.shortName := by simpa using h.trans h'.symm
      cases encoding <;> cases encoding' <;> first | rfl | exact absurd hname (by decide)
    | _ => simp [initial, eq_ite_iff] at hkind hb
  | boolean | void | string =>
    have hkind := hinitial h h'
    cases b <;> first | rfl | simp [initial, eq_ite_iff] at hkind hb
  | pointer _ ih =>
    have hkind := hinitial h h'
    cases b with
    | pointer inner' =>
      obtain ⟨rest, hrest, hname⟩ := shortName_pointer h
      obtain ⟨rest', hrest', hname'⟩ := shortName_pointer h'
      have heq : rest = rest' := by
        rw [hname] at hname'
        exact String.toList_injective (by simpa using hname')
      rw [ih (b := inner') ha hb hrest (heq ▸ hrest')]
    | _ => simp [initial, eq_ite_iff] at hkind hb
  | array of _ ih =>
    have hkind := hinitial h h'
    cases b with
    | array =>
      obtain ⟨_, hrest, hname⟩ := shortName_array h
      obtain ⟨_, hrest', hname'⟩ := shortName_array h'
      rw [hname, List.cons.injEq] at hname'
      obtain ⟨hlength, heq⟩ := eq_of_append_cons (fun hmem => (Numeral.isInner_text hmem).2 rfl)
        (fun hmem => (Numeral.isInner_text hmem).2 rfl) hname'.2
      have heq := String.toList_injective heq
      rw [ih ha.1 hb.1 hrest (heq ▸ hrest'), ha.2.text_injective hb.2 (String.toList_injective hlength)]
    | _ => simp [initial, eq_ite_iff] at hkind hb
  | parameter | unknown => exact ha.elim

end Ty

end Retarget
