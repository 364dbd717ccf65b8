import Retarget.Proofs.Optimize.Labels

/-!
# Labels of a procedure

Every label of a procedure is its symbol, or its symbol and a name behind an underscore: a name of the intermediate
code, one that the emitter made, the exit, the load of a slot and its operand, or the storage of a register. Reading a
name from its end tells which of these it is, so different marks are different labels.
-/
namespace Retarget

open List Numeral

/-- What a label of a procedure stands for. -/
inductive Mark where
  | entry
  /-- A label of the intermediate code. -/
  | own (name : String)
  /-- A label that the emitter made. -/
  | made (kind : String) (number : Nat)
  | exit
  /-- The load of an argument that callers write into the code. -/
  | load (parameter : String)
  /-- The operand of that load. -/
  | operand (parameter : String)
  /-- The storage of a register. -/
  | home (id : Numeral)
deriving DecidableEq, Repr

namespace Mark

def name? : Mark → Option String
  | .entry => none
  | .own name => some name
  | .made kind number => some s!"{kind}_{number}"
  | .exit => some "epilogue"
  | .load parameter => some (parameter ++ "_op")
  | .operand parameter => some (parameter ++ "_imm")
  | .home id => some ("r" ++ id.text)

def text (symbol : String) (m : Mark) : String :=
  match m.name? with
  | none => symbol
  | some name => s!"{symbol}_{name}"

@[simp] theorem text_entry (symbol : String) : entry.text symbol = symbol := rfl

@[simp] theorem text_exit (symbol : String) : exit.text symbol = s!"{symbol}_epilogue" :=
  String.ext (by simp [text, name?, toString])

/-- What the emitters call the labels that they make. -/
def madeKinds : List String := ["cmp", "true", "done", "skip", "shift_out", "shift_done"]

/-- A label that lowering makes, or that of a loop. -/
def IsCodeName (name : String) : Prop :=
  (∃ kind ∈ CodeTree.labelKinds, ∃ n : Nat, name = s!"{kind}_{n}") ∨ Procedure.IsLoopLabel name

/-- The mark is one that the code of a lowered procedure may have. -/
def IsProper : Mark → Prop
  | .own name => IsCodeName name
  | .made kind _ => kind ∈ madeKinds
  | .home id => ∃ n : Nat, id = .natural n
  | .entry | .exit | .load _ | .operand _ => True

/-! ## Reading names -/

/-- The mark of a name with what stands before and behind its last underscore, both from their ends. -/
def ofParts (name : String) (digits : List Char) : List Char → Mark
  | [] => .home (.natural (Nat.ofDigitChars 10 (name.toList.drop 1) 0))
  | _ :: kind =>
    if String.ofList kind.reverse ∈ madeKinds then
      .made (String.ofList kind.reverse) (Nat.ofDigitChars 10 digits.reverse 0)
    else .own name

/-- The mark that a name is of, read from its end. -/
def ofName (name : String) : Mark :=
  match name.toList.reverse with
  | 'e' :: _ => .exit
  | 'p' :: 'o' :: '_' :: parameter => .load (String.ofList parameter.reverse)
  | 'm' :: 'm' :: 'i' :: '_' :: parameter => .operand (String.ofList parameter.reverse)
  | letters => ofParts name (letters.takeWhile (· != '_')) (letters.dropWhile (· != '_'))

/-- A name that ends in a digit is read in two parts. -/
theorem ofName_of_digit {name} (hname : name.toList.reverse = c :: rest) (hc : c.isDigit = true) :
    ofName name =
      ofParts name (name.toList.reverse.takeWhile (· != '_')) (name.toList.reverse.dropWhile (· != '_')) := by
  unfold ofName
  -- no digit is the last letter of an exit, a load or an operand
  split
  · rename_i heq
    cases hname.symm.trans heq
    exact absurd hc (by decide)
  · rename_i heq
    cases hname.symm.trans heq
    exact absurd hc (by decide)
  · rename_i heq
    cases hname.symm.trans heq
    exact absurd hc (by decide)
  · rfl

theorem exists_digit_toDigits (n : Nat) : ∃ c rest, (Nat.toDigits 10 n).reverse = c :: rest ∧ c.isDigit = true := by
  have hne : (Nat.toDigits 10 n).reverse ≠ [] := reverse_ne_nil_iff.mpr Nat.toDigits_ne_nil
  obtain ⟨c, rest, hreverse⟩ := exists_cons_of_ne_nil hne
  have hmem : c ∈ Nat.toDigits 10 n := by
    rw [← mem_reverse, hreverse]
    exact mem_cons_self
  exact ⟨c, rest, hreverse, Nat.isDigit_of_mem_toDigits (by decide) (by decide) hmem⟩

theorem ofName_numbered (kind : String) (n : Nat) :
    ofName s!"{kind}_{n}" = if kind ∈ madeKinds then .made kind n else .own s!"{kind}_{n}" := by
  obtain ⟨c, rest, hdigits, hc⟩ := exists_digit_toDigits n
  have hname : s!"{kind}_{n}".toList.reverse = c :: (rest ++ '_' :: kind.toList.reverse) := by
    rw [toList_numbered, reverse_append, reverse_cons, hdigits]
    simp
  rw [ofName_of_digit hname hc, takeWhile_numbered, dropWhile_numbered, ofParts]
  simp only [reverse_reverse, String.ofList_toList, Nat.ofDigitChars_ten_toDigits]

theorem ofName_home (n : Nat) : ofName ("r" ++ (natural n).text) = .home (.natural n) := by
  obtain ⟨c, rest, hdigits, hc⟩ := exists_digit_toDigits n
  have hlist : ("r" ++ (natural n).text).toList = 'r' :: Nat.toDigits 10 n := by
    simp [Numeral.text, Nat.repr]
  have hname : ("r" ++ (natural n).text).toList.reverse = c :: (rest ++ ['r']) := by
    rw [hlist, reverse_cons, hdigits]
    rfl
  have hrest : ("r" ++ (natural n).text).toList.reverse.dropWhile (· != '_') = [] := by
    rw [hlist, reverse_cons, dropWhile_append_of_pos ne_underscore_of_mem_toDigits]
    decide
  rw [ofName_of_digit hname hc, hrest, ofParts, hlist]
  simp only [drop_succ_cons, drop_zero, Nat.ofDigitChars_ten_toDigits]

/-- Loops are no labels of the emitter, and neither is anything that lowering names. -/
theorem ofName_own (h : IsCodeName name) : ofName name = .own name := by
  have hkinds : ∀ kind ∈ "tail_recursion_loop" :: CodeTree.labelKinds, kind ∉ madeKinds := by decide
  rcases h with ⟨kind, hkind, n, rfl⟩ | rfl | ⟨k, rfl⟩
  · rw [ofName_numbered, if_neg (hkinds kind (mem_cons_of_mem _ hkind))]
  · decide
  · exact (ofName_numbered "tail_recursion_loop" k).trans (if_neg (hkinds _ mem_cons_self))

/-- A name tells its mark. -/
theorem IsProper.ofName_eq {m} (h : m.IsProper) (hname : m.name? = some name) : ofName name = m := by
  cases m with
  | entry => cases hname
  | own =>
    cases hname
    exact ofName_own h
  | made kind n =>
    cases hname
    exact (ofName_numbered kind n).trans (if_pos h)
  | exit =>
    cases hname
    decide
  | load | operand =>
    cases hname
    simp [ofName]
  | home =>
    cases hname
    obtain ⟨n, rfl⟩ := h
    exact ofName_home n

/-- What stands behind the symbol in a label. -/
def tail (m : Mark) : List Char :=
  match m.name? with
  | none => []
  | some name => '_' :: name.toList

theorem toList_text (symbol : String) (m : Mark) : (m.text symbol).toList = symbol.toList ++ m.tail := by
  unfold text tail
  cases m.name? <;> simp [toString]

/-- One symbol makes one label of two marks only if their names are the same. -/
theorem name?_eq_of_text {m m' : Mark} (h : m.text symbol = m'.text symbol) : m.name? = m'.name? := by
  have htail : m.tail = m'.tail := by
    rw [← append_right_inj symbol.toList, ← toList_text, h, toList_text]
  unfold tail at htail
  cases hm : m.name? <;> cases hm' : m'.name? <;> simp only [hm, hm'] at htail
  · rfl
  · cases htail
  · cases htail
  · rw [String.ext (cons.inj htail).2]

theorem IsProper.eq_of_text {m m' : Mark} (h : m.IsProper) (h' : m'.IsProper)
    (htext : m.text symbol = m'.text symbol) : m = m' := by
  have hname := name?_eq_of_text htext
  cases hm : m.name? with
  | none =>
    rw [hm] at hname
    cases m <;> cases hm
    cases m' <;> cases hname
    rfl
  | some => rw [← h.ofName_eq hm, ← h'.ofName_eq (hname.symm.trans hm)]

end Mark

end Retarget
