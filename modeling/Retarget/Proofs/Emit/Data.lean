import Retarget.Emit.Llvm.Module
import Retarget.Proofs.Checked
import Retarget.Proofs.Number.Bytes
import Retarget.Proofs.Number.Text
import Retarget.Run.Memory

/-!
# Initial data reads back

A global variable is laid out four times: as cells of a run, as bytes with the low byte first, as bytes with the
high byte first, and as a constant. The readers here take the emitted texts for what an assembler makes of them:
a directive gives bytes, the bytes of an element give a number, and the number stands for a value in two's
complement. Read so, all four give the same values, and the bytes are as many as the size of the type says
(`data_reads_as_cells`).
-/
namespace Retarget

open Int List Llvm M68k Number Option String Text

/-! ## Reading texts -/

namespace Text

/-- The natural number that digits spell. -/
def natural? (cs : List Char) : Option Nat :=
  if cs ≠ [] ∧ cs.all Char.isDigit = true then some (Nat.ofDigitChars 10 cs 0) else none

/-- The integer that digits spell, perhaps behind a minus sign. -/
def integer? : List Char → Option Int
  | '-' :: cs => (natural? cs).map fun n => -(n : Int)
  | cs => (natural? cs).map fun n => (n : Int)

/-- The parts of a text between its commas; an empty text has none. -/
def parts (cs : List Char) : List (List Char) := if cs = [] then [] else cs.splitOn ','

/-- What follows a word and a blank. -/
def behind? (word : String) (cs : List Char) : Option (List Char) :=
  if (word.toList ++ [' ']).isPrefixOf cs then some (cs.drop (word.toList.length + 1)) else none

/-- The natural numbers that follow a word and a blank, with commas between them. -/
def operands? (word : String) (text : String) : Option (List Nat) :=
  (behind? word text.toList).bind fun cs => (parts cs).mapM natural?

theorem natural?_toDigits (n : Nat) : natural? (Nat.toDigits 10 n) = some n := by
  have hdigits : (Nat.toDigits 10 n).all Char.isDigit = true :=
    all_eq_true.mpr fun c hc => Nat.isDigit_of_mem_toDigits (by decide) (by decide) hc
  rw [natural?, if_pos ⟨ne_nil_of_length_pos Nat.length_toDigits_pos, hdigits⟩, Nat.ofDigitChars_ten_toDigits]

theorem toList_repr_negSucc (n : Nat) : (Int.negSucc n).repr.toList = '-' :: Nat.toDigits 10 (n + 1) := by
  rw [← Nat.toList_repr]
  simp [Int.repr, toList_append]

theorem integer?_repr (n : Int) : integer? n.repr.toList = some n := by
  cases n with
  | ofNat n =>
    have hrepr : (Int.ofNat n).repr.toList = Nat.toDigits 10 n := Nat.toList_repr
    rw [hrepr]
    have hsign : ∀ cs, Nat.toDigits 10 n ≠ '-' :: cs := fun cs h => by
      have hdigit : '-'.isDigit = true :=
        Nat.isDigit_of_mem_toDigits (b := 10) (by decide) (by decide) (h ▸ mem_cons_self)
      exact absurd hdigit (by decide)
    unfold integer?
    split
    · exact absurd ‹_› (hsign _)
    · rw [natural?_toDigits]
      rfl
  | negSucc =>
    rw [toList_repr_negSucc, integer?, natural?_toDigits]
    rfl

theorem behind?_append (word : String) (cs : List Char) : behind? word (word.toList ++ ' ' :: cs) = some cs := by
  have happend : word.toList ++ ' ' :: cs = (word.toList ++ [' ']) ++ cs := by simp
  rw [behind?, happend, if_pos (List.isPrefixOf_iff_prefix.mpr (prefix_append _ _)), drop_left' (by simp)]

theorem parts_intercalate (texts : List (List Char)) (h : ∀ t ∈ texts, ',' ∉ t ∧ t ≠ []) :
    parts ([','].intercalate texts) = texts := by
  cases texts with
  | nil => rfl
  | cons first rest =>
    have hne : [','].intercalate (first :: rest) ≠ [] := by
      have hfirst := (h first mem_cons_self).2
      cases rest with
      | nil => simpa using hfirst
      | cons => simp [List.intercalate_cons_cons, hfirst]
    rw [parts, if_neg hne, splitOn_intercalate ',' (fun t ht => (h t ht).1) (by simp)]

end Text

/-- Reading element by element undoes writing element by element. -/
theorem mapM_map_eq_some {α β γ : Type} {f : β → Option γ} {g : α → β} {r : α → γ} {l : List α}
    (h : ∀ a ∈ l, f (g a) = some (r a)) : (l.map g).mapM f = some (l.map r) := by
  induction l with
  | nil => rfl
  | cons a l ih =>
    rw [map_cons, mapM_cons, h a mem_cons_self, ih fun b hb => h b (.tail _ hb)]
    rfl

namespace Number

theorem text_dyadic {n} (h : n.natAbs ≤ twoTo 53) : (dyadic n 0).text = n.repr := by
  rw [text, if_pos ⟨rfl, h⟩]

theorem text_ofNat (h : n < twoTo 53) : (ofNat n).text.toList = Nat.toDigits 10 n := by
  rw [ofNat_eq, text_dyadic (by rw [natAbs_natCast]; omega)]
  exact Nat.toList_repr

end Number

theorem comma_not_mem_toDigits (n : Nat) : ',' ∉ Nat.toDigits 10 n := fun h =>
  absurd (Nat.isDigit_of_mem_toDigits (by decide) (by decide) h) (by decide)

theorem operands?_text (word : String) (ns : List Nat) (h : ∀ n ∈ ns, n < twoTo 53) :
    operands? word (word ++ " " ++ operands (ns.map .ofNat)) = some ns := by
  have htexts : ((ns.map Number.ofNat).map Number.text).map String.toList = ns.map (Nat.toDigits 10) := by
    rw [List.map_map, List.map_map]
    exact map_congr_left fun n hn => text_ofNat (h n hn)
  have hlist : (word ++ " " ++ operands (ns.map .ofNat)).toList =
      word.toList ++ ' ' :: [','].intercalate (ns.map (Nat.toDigits 10)) := by
    rw [operands, Text.join, toList_append, toList_append, toList_intercalate, htexts,
      List.append_assoc]
    rfl
  rw [operands?, hlist, behind?_append, bind_some, parts_intercalate]
  · simpa using mapM_map_eq_some (f := natural?) (r := id) fun n _ => natural?_toDigits n
  · intro t ht
    obtain ⟨n, -, rfl⟩ := mem_map.mp ht
    exact ⟨comma_not_mem_toDigits n, ne_nil_of_length_pos Nat.length_toDigits_pos⟩

/-! ## Values in storage -/

namespace Ty

def storedBytes : Ty → Nat
  | .integer bits _ => integerStorage bits / 8
  | .fixed encoding => encoding.storageBits / 8
  | .boolean => 1
  | _ => 0

/-- Whether the highest bit of a stored value counts as its sign. -/
def storedSigned : Ty → Bool
  | .integer _ signed => signed
  | .fixed _ => true
  | _ => false

/-- The number that is stored for a value: its remainder modulo the numbers that the storage tells apart. -/
def toStored (type : Ty) (n : Int) : Nat := (n % ((256 ^ type.storedBytes : Nat) : Int)).toNat

/-- The value that a stored number stands for. -/
def ofStored (type : Ty) (n : Nat) : Int := wrapInt (8 * type.storedBytes) type.storedSigned n

variable {type : Ty} {n : Int}

theorem isSize_storedBytes (h : type.Holds n) : IsSize type.storedBytes := by
  match type with
  | .integer bits _ => rcases h.1 with rfl | rfl | rfl | rfl <;> simp [storedBytes, integerStorage, IsSize]
  | .fixed encoding => cases encoding <;> simp [storedBytes, Encoding.storageBits, IsSize]
  | .boolean => exact .inl rfl

theorem sizeInBytes_of_holds (h : type.Holds n) (pointerBits : Number) :
    type.sizeInBytes pointerBits = .ok (.ofNat type.storedBytes) := by
  match type with
  | .integer bits _ => rcases h.1 with rfl | rfl | rfl | rfl <;> rfl
  | .fixed encoding => cases encoding <;> rfl
  | .boolean => rfl

/-- A value fits in its storage, which may be wider. -/
theorem inWidth_storage (h : type.Holds n) :
    IsWidth (8 * type.storedBytes) ∧ InWidth (8 * type.storedBytes) type.storedSigned n := by
  match type with
  | .integer bits signed =>
    obtain ⟨hwidth, hn⟩ := h
    rcases hwidth with rfl | rfl | rfl | rfl <;> cases signed <;>
      simp only [InWidth, storedBytes, storedSigned, integerStorage, twoTo, Bool.false_eq_true, ↓reduceIte] at hn ⊢ <;>
      refine ⟨by decide, ?_⟩ <;> simp at hn ⊢ <;> omega
  | .fixed encoding =>
    cases encoding <;>
      simp only [Holds, InWidth, storedBytes, storedSigned, Encoding.storageBits, Encoding.usedBits, twoTo,
        ↓reduceIte] at h ⊢ <;>
      refine ⟨by decide, ?_⟩ <;> simp at h ⊢ <;> omega
  | .boolean => rcases h with rfl | rfl <;> decide

theorem wrapInt_emod (bits : Nat) (signed : Bool) (n : Int) :
    wrapInt bits signed (n % twoTo bits) = wrapInt bits signed n := by
  unfold wrapInt
  rw [emod_emod]

theorem toStored_lt (type : Ty) (n : Int) : type.toStored n < 256 ^ type.storedBytes := by
  have hpos : 0 < 256 ^ type.storedBytes := Nat.pow_pos (by decide)
  have hlow := emod_nonneg n (b := ((256 ^ type.storedBytes : Nat) : Int)) (by omega)
  have hhigh := emod_lt_of_pos n (b := ((256 ^ type.storedBytes : Nat) : Int)) (by omega)
  unfold toStored
  omega

/-- What is stored for a value stands for it. -/
theorem ofStored_toStored (h : type.Holds n) : type.ofStored (type.toStored n) = n := by
  obtain ⟨hwidth, hn⟩ := inWidth_storage h
  have hpow : 256 ^ type.storedBytes = twoTo (8 * type.storedBytes) := by
    rw [twoTo, Nat.pow_eq, Nat.pow_mul]
  have hpos : 0 < 256 ^ type.storedBytes := Nat.pow_pos (by decide)
  rw [ofStored, toStored, toNat_of_nonneg (emod_nonneg _ (by omega)), hpow, wrapInt_emod, wrapInt_of_inWidth hwidth hn]

end Ty

/-! ## Bytes -/

/-- The list in pieces of a length. -/
def pieces {α : Type} (size : Nat) (l : List α) : List (List α) :=
  if size = 0 ∨ l = [] then [] else l.take size :: pieces size (l.drop size)
termination_by l.length
decreasing_by
  rename_i h
  have hpos := List.length_pos_iff.mpr (not_or.mp h).2
  have hsize := (not_or.mp h).1
  rw [List.length_drop]
  omega

theorem pieces_flatten {α : Type} (hsize : 0 < size) (ls : List (List α)) (h : ∀ l ∈ ls, l.length = size) :
    pieces size ls.flatten = ls := by
  induction ls with
  | nil => simp [pieces]
  | cons l ls ih =>
    have hl := h l mem_cons_self
    have hne : l ++ ls.flatten ≠ [] := fun hnil => by
      rw [(append_eq_nil_iff.mp hnil).1] at hl
      exact absurd hl (by simp; omega)
    rw [flatten_cons, pieces, if_neg (by simp only [not_or]; exact ⟨by omega, hne⟩), take_left' hl, drop_left' hl,
      ih fun m hm => h m (.tail _ hm)]

/-- The bytes that a directive lays out where the low byte comes first: single bytes for values of one byte, words
for all others. -/
def littleBytes? (type : Ty) (directives : DataDirectives) (text : String) : Option (List Nat) :=
  if type.storedBytes = 1 then operands? directives.byte text
  else (operands? directives.word text).map (·.flatMap (lowBytes 2))

/-- The values of bytes, each with its low byte first. -/
def littleValues (type : Ty) (bytes : List Nat) : List Int :=
  (pieces type.storedBytes bytes).map fun element => type.ofStored (Nat.ofDigits 256 element)

/-- The directives with the number of bytes that each of their operands gives. -/
def bigUnits : List (String × Nat) := [(".byte", 1), (".word", 2), (".long", 4)]

/-- The bytes that a directive lays out where the high byte comes first. -/
def bigBytes? (text : String) : Option (List Nat) :=
  bigUnits.findSome? fun unit => (operands? unit.1 text).map (·.flatMap fun n => (lowBytes unit.2 n).reverse)

/-- The values of bytes, each with its high byte first. -/
def bigValues (type : Ty) (bytes : List Nat) : List Int :=
  (pieces type.storedBytes bytes).map fun element => type.ofStored (Nat.ofDigits 256 element.reverse)

/-! ## Constants -/

namespace Llvm

def readLiteral? (type : Ty) (cs : List Char) : Option Int :=
  match type with
  | .integer bits signed => (integer? cs).map (wrapInt bits signed)
  | .fixed encoding => (integer? cs).map (wrapInt encoding.usedBits true)
  | .boolean => if cs = "true".toList then some 1 else if cs = "false".toList then some 0 else none
  | _ => none

/-- The value of an element, which stands behind its type. -/
def readElement? (of : Ty) (cs : List Char) : Option Int :=
  match typeText of with
  | .ok type => (behind? type (cs.dropWhile (· == ' '))).bind (readLiteral? of)
  | .error _ => none

/-- The values of a constant; those of an array stand in brackets. -/
def readConstant? (type : Ty) (text : String) : Option (List Int) :=
  match type, text.toList with
  | .array of _, '[' :: cs =>
    if cs.getLast? = some ']' then (parts cs.dropLast).mapM (readElement? of) else none
  | type, cs => (readLiteral? type cs).map ([·])

end Llvm

/-! ## Variables -/

/-- The variable starts with integers that its cells can hold: a scalar with a number, or an array that a run can
lay out with a list of numbers no longer than it. The range of every type of numbers has zero in it. -/
inductive GlobalVariable.HasNumbers : GlobalVariable → Prop
  | scalar {module name : String} {type : Ty} {n : Int} (holds : type.Holds n) :
      HasNumbers ⟨module, name, type, some (.scalar (.ofInt n))⟩
  | array {module name : String} {of : Ty} {length : Numeral} {count : Nat} {ns : List Int} (numeric : of.Holds 0)
      (counted : length.value = .ofNat count) (laidOut : count < twoTo 32) (fits : ns.length ≤ count)
      (holds : ∀ n ∈ ns, of.Holds n) :
      HasNumbers ⟨module, name, .array of length, some (.list (ns.map .ofInt))⟩

/-- What the emitters and a run make of such a variable: values of its element type, zeros at the end included. -/
structure GlobalVariable.StartsWith (g : GlobalVariable) (initializer : Initializer) (ns : List Int) : Prop where
  given : g.initializer = some initializer
  numeric : ∃ n, g.type.element.Holds n
  holds : ∀ n ∈ ns, g.type.element.Holds n
  values : initialValues g.type initializer = ns.map .ofInt
  cells : g.cells = ns.map fun n => .number (.ofInt n)
  size : ∀ pointerBits, g.type.sizeInBytes pointerBits = .ok (.ofNat (ns.length * g.type.element.storedBytes))

theorem GlobalVariable.cells_scalar {module name type n} (holds : type.Holds n) :
    cells ⟨module, name, type, some (.scalar (.ofInt n))⟩ = [.number (.ofInt n)] := by
  cases type <;> first | rfl | exact holds.elim

theorem GlobalVariable.HasNumbers.startsWith {g : GlobalVariable} (h : g.HasNumbers) :
    ∃ initializer ns, g.StartsWith initializer ns := by
  cases h with
  | @scalar _ _ type n holds =>
    have helement : type.element = type := by cases type <;> first | rfl | exact holds.elim
    have hvalues : initialValues type (.scalar (.ofInt n)) = [n].map .ofInt := by
      cases type <;> first | rfl | exact holds.elim
    have hholds : type.element.Holds n := by rwa [helement]
    refine ⟨.scalar (.ofInt n), [n], rfl, ⟨n, hholds⟩, forall_mem_singleton.mpr hholds, hvalues, cells_scalar holds,
      fun pointerBits => ?_⟩
    rw [Ty.sizeInBytes_of_holds holds, helement, List.length_singleton, Nat.one_mul]
  | @array _ _ of length count ns numeric counted laidOut _ holds =>
    have hbelow : length.value.below = count := by rw [counted]; simp [Number.ofNat, Number.below, twoTo_zero]
    have hcount : cellCount length = count := by
      rw [cellCount, counted]
      simp [Number.ofNat, toCount, Number.toInt?, twoTo_zero, laidOut]
    refine ⟨.list (ns.map .ofInt), ns ++ replicate (count - ns.length) 0, rfl, ⟨0, numeric⟩, ?_, ?_, ?_,
      fun pointerBits => ?_⟩
    · refine forall_mem_append.mpr ⟨holds, fun n hn => ?_⟩
      rw [(mem_replicate.mp hn).2]
      exact numeric
    · simp [initialValues, Initializer.values, hbelow, ofInt, zero_eq]
    · simp [cells, overwrite, hcount, ofInt, zero_eq, drop_replicate]
    · have hsize := Ty.isSize_storedBytes numeric
      have hlarge : count * of.storedBytes ≤ twoTo 53 := by
        have hfour : of.storedBytes ≤ 4 := by rcases hsize with h | h | h <;> omega
        calc count * of.storedBytes ≤ twoTo 32 * 4 := Nat.mul_le_mul (Nat.le_of_lt laidOut) hfour
          _ ≤ twoTo 53 := by decide
      have hlen : (ns ++ replicate (count - ns.length) (0 : Int)).length = count := by simp; omega
      show (Bind.bind (of.sizeInBytes pointerBits) fun size => pure (length.value.mul size)) = _
      rw [Ty.sizeInBytes_of_holds numeric, counted, hlen]
      show Except.ok ((Number.ofNat count).mul (.ofNat of.storedBytes)) = _
      rw [mul_ofNat hlarge]
      rfl

namespace GlobalVariable.StartsWith

variable {g : GlobalVariable} {initializer : Initializer} {ns : List Int}

section
variable (h : g.StartsWith initializer ns)
include h

theorem storedBytes_pos : 0 < g.type.element.storedBytes := by
  obtain ⟨_, hn⟩ := h.numeric
  rcases Ty.isSize_storedBytes hn with h | h | h <;> omega

theorem ofStored_lowBytes (hn : n ∈ ns) : g.type.element.ofStored
    (Nat.ofDigits 256 (lowBytes g.type.element.storedBytes (g.type.element.toStored n))) = n := by
  rw [ofDigits_lowBytes, Nat.mod_eq_of_lt (Ty.toStored_lt _ _), Ty.ofStored_toStored (h.holds n hn)]

/-! ## Low byte first -/

theorem littleValues_lowBytes :
    littleValues g.type.element (ns.flatMap fun n => lowBytes g.type.element.storedBytes (g.type.element.toStored n)) =
      ns := by
  rw [littleValues, flatMap_def, pieces_flatten h.storedBytes_pos, List.map_map]
  · exact (map_congr_left fun n hn => h.ofStored_lowBytes hn).trans (map_id ns)
  · exact forall_mem_map.mpr fun n _ => length_lowBytes _ _

theorem littleEndianData (pointerBits : Number) (directives : DataDirectives) :
    ∃ text, littleEndianData g.type g.initializer pointerBits directives = .ok text ∧
      littleBytes? g.type.element directives text =
        some (ns.flatMap fun n => lowBytes g.type.element.storedBytes (g.type.element.toStored n)) := by
  obtain ⟨_, hn⟩ := h.numeric
  have hbytes := Ty.isSize_storedBytes hn
  have hsize := Ty.sizeInBytes_of_holds hn pointerBits
  have hunfold : Retarget.littleEndianData g.type g.initializer pointerBits directives =
      if Number.ofNat g.type.element.storedBytes = 1 then
        .ok (directives.byte ++ " " ++ operands ((ns.map ofInt).flatMap fun v => bytesOf v 1))
      else .ok (directives.word ++ " " ++
        operands ((ns.map ofInt).flatMap fun v => valueWords v (.ofNat g.type.element.storedBytes))) := by
    unfold Retarget.littleEndianData
    rw [h.size pointerBits, h.given]
    show (Bind.bind (g.type.element.sizeInBytes pointerBits) fun elementSize => _) = _
    rw [hsize]
    simp only [h.values]
    show (if Number.ofNat g.type.element.storedBytes = 1 then _ else _) = _
    split <;> rfl
  have hstored : ∀ n, (n % ((256 ^ g.type.element.storedBytes : Nat) : Int)).toNat = g.type.element.toStored n :=
    fun n => rfl
  rw [hunfold]
  generalize g.type.element = type at *
  rw [flatMap_map]
  by_cases hone : type.storedBytes = 1
  · refine ⟨_, if_pos (by rw [hone]; rfl), ?_⟩
    rw [littleBytes?, if_pos hone]
    have hlist : (ns.flatMap fun n => bytesOf (.ofInt n) 1) =
        (ns.flatMap fun n => lowBytes type.storedBytes (type.toStored n)).map .ofNat := by
      rw [map_flatMap]
      refine flatMap_congr fun n _ => ?_
      rw [← hstored, ← bytesOf_dyadic hbytes, hone]
      rfl
    rw [hlist, operands?_text]
    intro _ hbyte
    obtain ⟨n, -, hbyte⟩ := mem_flatMap.mp hbyte
    have := lt_of_mem_lowBytes hbyte
    rw [twoTo_53]
    omega
  · obtain ⟨half, hhalf⟩ : ∃ half, type.storedBytes = 2 * half := by
      rcases hbytes with h | h | h
      · exact absurd h hone
      · exact ⟨1, h⟩
      · exact ⟨2, h⟩
    have hne : Number.ofNat type.storedBytes ≠ 1 := fun heq => by
      injection heq with heq
      exact hone (by exact_mod_cast heq)
    refine ⟨_, if_neg hne, ?_⟩
    rw [littleBytes?, if_neg hone]
    have hlist : (ns.flatMap fun n => valueWords (.ofInt n) (.ofNat type.storedBytes)) =
        (ns.flatMap fun n => lowWords half (type.toStored n)).map .ofNat := by
      rw [map_flatMap]
      refine flatMap_congr fun n _ => ?_
      rw [valueWords, ofInt, bytesOf_dyadic hbytes, hstored, hhalf, wordsOf_lowBytes]
    rw [flatMap_map, hlist, operands?_text]
    · rw [map_some, flatMap_assoc]
      simp only [flatMap_lowWords, hhalf]
    · intro _ hword
      obtain ⟨n, -, hword⟩ := mem_flatMap.mp hword
      have := lt_of_mem_lowWords hword
      rw [twoTo_53]
      omega

/-! ## High byte first -/

theorem bigValues_lowBytes :
    bigValues g.type.element
      (ns.flatMap fun n => (lowBytes g.type.element.storedBytes (g.type.element.toStored n)).reverse) = ns := by
  rw [bigValues, flatMap_def, pieces_flatten h.storedBytes_pos, List.map_map]
  · refine (map_congr_left fun n hn => ?_).trans (map_id ns)
    show Ty.ofStored _ (Nat.ofDigits 256 (lowBytes _ _).reverse.reverse) = n
    rw [reverse_reverse, h.ofStored_lowBytes hn]
  · exact forall_mem_map.mpr fun n _ => by rw [length_reverse, length_lowBytes]

end

/-- The directive tells how many bytes each operand gives. -/
theorem bigBytes?_text {size} (hsize : IsSize size) (numbers : List Nat) (hnumbers : ∀ n ∈ numbers, n < twoTo 53) :
    bigBytes? (directiveFor (.ofNat size) ++ " " ++ operands (numbers.map .ofNat)) =
      some (numbers.flatMap fun n => (lowBytes size n).reverse) := by
  have hother : ∀ (word other rest : String),
      (word.toList ++ [' ']).isPrefixOf (other.toList ++ ' ' :: rest.toList) = false →
      operands? word (other ++ " " ++ rest) = none := fun word other rest hne => by
    have hlist : (other ++ " " ++ rest).toList = other.toList ++ ' ' :: rest.toList := by
      rw [toList_append, toList_append, List.append_assoc]
      rfl
    rw [operands?, behind?, hlist, hne]
    rfl
  have hread := fun word => operands?_text word numbers hnumbers
  rw [bigBytes?, bigUnits]
  rcases hsize with rfl | rfl | rfl
  · rw [show directiveFor (.ofNat 1) = ".byte" from rfl]
    simp only [findSome?_cons, hread, map_some]
  · rw [show directiveFor (.ofNat 2) = ".word" from rfl]
    simp only [findSome?_cons, hother ".byte" ".word" _ rfl, hread, map_none, map_some]
  · rw [show directiveFor (.ofNat 4) = ".long" from rfl]
    simp only [findSome?_cons, hother ".byte" ".long" _ rfl, hother ".word" ".long" _ rfl, hread, map_none,
      map_some]

theorem bigEndianData (h : g.StartsWith initializer ns) :
    ∃ text, bigEndianData g.type g.initializer = .ok text ∧
      bigBytes? text =
        some (ns.flatMap fun n => (lowBytes g.type.element.storedBytes (g.type.element.toStored n)).reverse) := by
  obtain ⟨_, hn⟩ := h.numeric
  have hbytes := Ty.isSize_storedBytes hn
  have hvalues : (ns.map ofInt).map (unsignedValue (.ofNat g.type.element.storedBytes)) =
      (ns.map g.type.element.toStored).map .ofNat := by
    rw [List.map_map, List.map_map]
    exact map_congr_left fun n _ => unsignedValue_dyadic hbytes n
  have hunfold : M68k.bigEndianData g.type g.initializer = .ok (directiveFor (.ofNat g.type.element.storedBytes) ++
      " " ++ operands ((ns.map g.type.element.toStored).map .ofNat)) := by
    unfold M68k.bigEndianData
    rw [h.size pointerBits, h.given]
    show (Bind.bind (g.type.element.sizeInBytes pointerBits) fun elementSize => _) = _
    rw [Ty.sizeInBytes_of_holds hn]
    show Except.ok (directiveFor (.ofNat g.type.element.storedBytes) ++ " " ++
      operands ((initialValues g.type initializer).map (unsignedValue (.ofNat g.type.element.storedBytes)))) = _
    rw [h.values, hvalues]
  refine ⟨_, hunfold, ?_⟩
  rw [bigBytes?_text hbytes, flatMap_map]
  intro _ hstored
  obtain ⟨n, -, rfl⟩ := mem_map.mp hstored
  have := Ty.toStored_lt g.type.element n
  have := pow_le_of_isSize hbytes
  rw [twoTo_53]
  omega

end GlobalVariable.StartsWith

/-! ## Constants read back -/

namespace Llvm

variable {type : Ty} {n : Int}

theorem typeText_of_holds (h : type.Holds n) :
    ∃ text digits, typeText type = .ok text ∧ text.toList = 'i' :: digits ∧ ',' ∉ text.toList := by
  have hwidth : ∀ bits : Nat, (s!"i{bits}").toList = 'i' :: Nat.toDigits 10 bits ∧ ',' ∉ (s!"i{bits}").toList :=
    fun bits => by
      have hlist : (s!"i{bits}").toList = 'i' :: Nat.toDigits 10 bits := by
        show ("i" ++ bits.repr).toList = _
        rw [toList_append, Nat.toList_repr]
        rfl
      refine ⟨hlist, ?_⟩
      rw [hlist, mem_cons, not_or]
      exact ⟨by decide, comma_not_mem_toDigits bits⟩
  match type with
  | .integer bits _ => exact ⟨_, _, rfl, (hwidth bits).1, (hwidth bits).2⟩
  | .fixed encoding => exact ⟨_, _, rfl, (hwidth encoding.usedBits).1, (hwidth encoding.usedBits).2⟩
  | .boolean => exact ⟨"i1", ['1'], rfl, by decide, by decide⟩

theorem comma_not_mem_repr (n : Int) : ',' ∉ n.repr.toList := by
  cases n with
  | ofNat n =>
    rw [show (Int.ofNat n).repr.toList = Nat.toDigits 10 n from Nat.toList_repr]
    exact comma_not_mem_toDigits n
  | negSucc =>
    rw [toList_repr_negSucc, mem_cons, not_or]
    exact ⟨by decide, comma_not_mem_toDigits _⟩

theorem scalarConstant_of_holds (h : type.Holds n) :
    ∃ text, scalarConstant (.ofInt n) type = .ok text ∧ readLiteral? type text.toList = some n ∧ ',' ∉ text.toList := by
  have htext : (ofInt n).text = n.repr := Number.text_dyadic (Nat.le_trans (Ty.Holds.natAbs_le h) (by decide))
  match type with
  | .integer bits signed =>
    refine ⟨n.repr, ?_, ?_, comma_not_mem_repr n⟩
    · show (Bind.bind ((Ty.integer bits signed).wrap (.dyadic n 0)) fun x => pure x.text) = _
      rw [Ty.wrap_of_holds h, ← htext]
      rfl
    · rw [readLiteral?, integer?_repr, map_some, wrapInt_of_inWidth h.1 h.2]
  | .fixed encoding =>
    refine ⟨n.repr, ?_, ?_, comma_not_mem_repr n⟩
    · show (Bind.bind ((Ty.fixed encoding).wrap (.dyadic n 0)) fun x => pure x.text) = _
      rw [Ty.wrap_of_holds h, ← htext]
      rfl
    · rw [readLiteral?, integer?_repr, map_some, wrapInt_of_inWidth encoding.isWidth_usedBits h]
  | .boolean =>
    rcases h with rfl | rfl
    · exact ⟨"false", rfl, rfl, by decide⟩
    · exact ⟨"true", rfl, rfl, by decide⟩

theorem mapM_scalarConstant (h : ∀ n ∈ ns, type.Holds n) :
    ∃ texts, (ns.map ofInt).mapM (fun v => scalarConstant v type) = .ok texts ∧
      Forall₂ (fun n text => type.Holds n ∧ readLiteral? type text.toList = some n ∧ ',' ∉ text.toList) ns texts := by
  induction ns with
  | nil => exact ⟨[], rfl, .nil⟩
  | cons n ns ih =>
    have hn := h n mem_cons_self
    obtain ⟨texts, hmapM, htexts⟩ := ih fun m hm => h m (.tail _ hm)
    obtain ⟨text, htext, hread, hcomma⟩ := scalarConstant_of_holds hn
    refine ⟨text :: texts, ?_, .cons ⟨hn, hread, hcomma⟩ htexts⟩
    rw [map_cons, mapM_cons, htext, hmapM]
    rfl

/-- A comma and a blank between texts are a comma between texts that start with a blank, the first one apart. -/
theorem intercalate_comma_blank (first : List Char) (rest : List (List Char)) :
    [',', ' '].intercalate (first :: rest) = [','].intercalate (first :: rest.map (' ' :: ·)) := by
  induction rest generalizing first with
  | nil => simp
  | cons _ rest ih =>
    rw [List.intercalate_cons_cons, ih, map_cons, List.intercalate_cons_cons]
    cases rest with
    | nil => simp
    | cons => simp [List.intercalate_cons_cons]

theorem readElement?_of_holds (h : type.Holds n) {text} (hname : typeText type = .ok name)
    (htext : readLiteral? type text.toList = some n) (blanks : List Char) (hblanks : ∀ c ∈ blanks, c = ' ') :
    readElement? type (blanks ++ (name ++ " " ++ text).toList) = some n := by
  obtain ⟨_, _, hname', hlist, -⟩ := typeText_of_holds h
  cases hname.symm.trans hname'
  have happend : (name ++ " " ++ text).toList = name.toList ++ ' ' :: text.toList := by
    rw [toList_append, toList_append, List.append_assoc]
    rfl
  have hdrop : (blanks ++ (name ++ " " ++ text).toList).dropWhile (· == ' ') = name.toList ++ ' ' :: text.toList := by
    rw [dropWhile_append_of_pos (by simpa using hblanks), happend, hlist]
    rfl
  rw [readElement?, hname]
  dsimp only
  rw [hdrop, behind?_append, bind_some, htext]

theorem readConstant?_array (length : Numeral) (hname : typeText type = .ok name) (ns : List Int)
    (htexts : Forall₂ (fun n text => type.Holds n ∧ readLiteral? type text.toList = some n ∧
      ',' ∉ text.toList) ns texts) :
    readConstant? (.array type length) ("[" ++ join ", " (texts.map fun text => name ++ " " ++ text) ++ "]") =
      some ns := by
  have hlist : ("[" ++ join ", " (texts.map fun text => name ++ " " ++ text) ++ "]").toList =
      '[' :: ([',', ' '].intercalate (texts.map fun text => (name ++ " " ++ text).toList) ++ [']']) := by
    rw [toList_append, toList_append, Text.join, toList_intercalate, List.map_map]
    rfl
  unfold readConstant?
  rw [hlist]
  simp only [getLast?_append, getLast?_singleton, some_or, if_true, dropLast_concat]
  cases htexts with
  | nil => rfl
  | @cons n text ns texts hfirst hrest =>
    have hfree : ∀ {n : Int} {text : String}, type.Holds n → ',' ∉ text.toList →
        ',' ∉ (name ++ " " ++ text).toList ∧ (name ++ " " ++ text).toList ≠ [] := fun hn htext => by
      obtain ⟨_, _, hname', hlist, hcomma⟩ := typeText_of_holds hn
      cases hname.symm.trans hname'
      rw [toList_append, toList_append]
      refine ⟨?_, by simp [hlist]⟩
      simp only [mem_append, not_or]
      exact ⟨⟨hcomma, by decide⟩, htext⟩
    have hread : readElement? type (name ++ " " ++ text).toList = some n :=
      readElement?_of_holds hfirst.1 hname hfirst.2.1 [] (by simp)
    rw [map_cons, intercalate_comma_blank, parts_intercalate, mapM_cons, hread, List.map_map]
    · have hothers : (texts.map ((' ' :: ·) ∘ fun text => (name ++ " " ++ text).toList)).mapM (readElement? type) =
          some ns := by
        clear hlist
        induction hrest with
        | nil => rfl
        | @cons n text ns _ hn _ ih =>
          rw [map_cons, mapM_cons, ih]
          show bind (readElement? type ([' '] ++ (name ++ " " ++ text).toList)) _ = _
          rw [readElement?_of_holds hn.1 hname hn.2.1 [' '] (by simp)]
          rfl
      rw [hothers]
      rfl
    · intro t ht
      rcases mem_cons.mp ht with rfl | ht
      · exact hfree hfirst.1 hfirst.2.2
      · rw [List.map_map] at ht
        obtain ⟨_, htext, rfl⟩ := mem_map.mp ht
        obtain ⟨n, -, hn⟩ := exists_origin hrest htext
        obtain ⟨hcomma, -⟩ := hfree hn.1 hn.2.2
        exact ⟨by simpa using hcomma, by simp⟩

end Llvm

theorem GlobalVariable.HasNumbers.constant {g : GlobalVariable} {initializer ns} (hnumbers : g.HasNumbers)
    (h : g.StartsWith initializer ns) :
    ∃ text, constant g.type g.initializer = .ok text ∧ readConstant? g.type text = some ns := by
  have hinjective : Function.Injective ofInt := fun a b hab => by injection hab
  cases hnumbers with
  | @scalar _ _ type n holds =>
    have hplain : Llvm.constant type (some (.scalar (.ofInt n))) = Llvm.scalarConstant (.ofInt n) type := rfl
    obtain ⟨text, htext, hread, -⟩ := scalarConstant_of_holds holds
    have hvalues : ns = [n] := by
      have hcells := h.cells
      rw [cells_scalar holds] at hcells
      cases ns with
      | nil => cases hcells
      | cons =>
        simp only [map_cons, cons.injEq, Value.number.injEq] at hcells
        rw [hinjective hcells.1, map_eq_nil_iff.mp hcells.2.symm]
    refine ⟨text, hplain.trans htext, ?_⟩
    have hscalar : readConstant? type text = (readLiteral? type text.toList).map ([·]) := by
      unfold readConstant?
      cases type <;> first | rfl | exact holds.elim
    rw [hscalar, hread, hvalues]
    rfl
  | @array _ _ of length _ values numeric =>
    obtain ⟨name', _, hname, -, -⟩ := typeText_of_holds numeric
    obtain ⟨texts, hmapM, htexts⟩ := mapM_scalarConstant h.holds
    have hgiven : initializer = .list (values.map .ofInt) := by
      have hgiven := h.given
      cases hgiven
      rfl
    refine ⟨"[" ++ join ", " (texts.map fun text => name' ++ " " ++ text) ++ "]", ?_,
      readConstant?_array length hname ns htexts⟩
    have hvalues : initialValues (.array of length) (.list (values.map .ofInt)) = ns.map .ofInt := hgiven ▸ h.values
    show (Bind.bind (typeText of) fun text => Bind.bind
      ((initialValues (.array of length) (.list (values.map .ofInt))).mapM fun v => scalarConstant v of)
      fun elements => pure ("[" ++ join ", " (elements.map fun element => text ++ " " ++ element) ++ "]")) = _
    rw [hname, hvalues]
    exact congrArg (Bind.bind · fun elements =>
      pure ("[" ++ join ", " (elements.map fun element => name' ++ " " ++ element) ++ "]")) hmapM

/-- The cells that a run starts with hold what the emitted data says, whichever way it is laid out: with the low
byte first, with the high byte first, or as a constant. The bytes are as many as the size of the type. -/
theorem GlobalVariable.data_reads_as_cells (g : GlobalVariable) (h : g.HasNumbers) (pointerBits : Number)
    (directives : DataDirectives) :
    ∃ little littleBytes big bigBytes constant values,
      littleEndianData g.type g.initializer pointerBits directives = .ok little ∧
      littleBytes? g.type.element directives little = some littleBytes ∧
      (littleValues g.type.element littleBytes).map (fun n => .number (.ofInt n)) = g.cells ∧
      g.type.sizeInBytes pointerBits = .ok (.ofNat littleBytes.length) ∧
      M68k.bigEndianData g.type g.initializer = .ok big ∧ bigBytes? big = some bigBytes ∧
      (bigValues g.type.element bigBytes).map (fun n => .number (.ofInt n)) = g.cells ∧
      g.type.sizeInBytes M68k.pointerBits = .ok (.ofNat bigBytes.length) ∧
      Llvm.constant g.type g.initializer = .ok constant ∧ Llvm.readConstant? g.type constant = some values ∧
      values.map (fun n => .number (.ofInt n)) = g.cells := by
  obtain ⟨_, ns, hstarts⟩ := h.startsWith
  obtain ⟨little, hlittle, hlittleBytes⟩ := hstarts.littleEndianData pointerBits directives
  obtain ⟨big, hbig, hbigBytes⟩ := hstarts.bigEndianData
  obtain ⟨constant, hconstant, hvalues⟩ := h.constant hstarts
  refine ⟨little, _, big, _, constant, ns, hlittle, hlittleBytes, ?_, ?_, hbig, hbigBytes, ?_, ?_, hconstant, hvalues,
    hstarts.cells.symm⟩
  · rw [hstarts.littleValues_lowBytes, hstarts.cells]
  · rw [hstarts.size, length_flatMap]
    simp
  · rw [hstarts.bigValues_lowBytes, hstarts.cells]
  · rw [hstarts.size, length_flatMap]
    simp

/-- An array of three numbers of 24 bits, of which two are given. -/
def GlobalVariable.levels : GlobalVariable := ⟨"m", "levels", .array .i24 3, some (.list [.ofInt (-2), 300])⟩

theorem GlobalVariable.levels_data_reads_as_cells :
    littleEndianData levels.type levels.initializer 16 ⟨"DB", "DW", "DS"⟩ = .ok "DW 65534,65535,300,0,0,0" ∧
    ∃ bytes, littleBytes? .i24 ⟨"DB", "DW", "DS"⟩ "DW 65534,65535,300,0,0,0" = some bytes ∧
      (littleValues .i24 bytes).map (fun n => .number (.ofInt n)) = levels.cells := by
  have htext : littleEndianData levels.type levels.initializer 16 ⟨"DB", "DW", "DS"⟩ =
      .ok "DW 65534,65535,300,0,0,0" := by decide +kernel
  have hcount : (3 : Numeral).value = .ofNat 3 := rfl
  have hholds : ∀ n ∈ [-2, 300], Ty.i24.Holds n := by decide
  have hnumbers : levels.HasNumbers := .array (by decide) hcount (by decide) (by decide) hholds
  obtain ⟨_, bytes, -, -, -, -, hlittle, hbytes, hvalues, -⟩ :=
    data_reads_as_cells levels hnumbers 16 ⟨"DB", "DW", "DS"⟩
  cases htext.symm.trans hlittle
  exact ⟨htext, bytes, hbytes, hvalues⟩

end Retarget
