import Retarget.Number.Decimal
import Retarget.Text

/-!
# JSON documents

Settings arrive as JSON documents, and a node of no known kind is quoted as one. The members of an
object keep their order, but names that spell places in a sequence go first.
-/
namespace Retarget

inductive Json where
  | null
  | bool (value : Bool)
  | number (value : Number)
  /-- Zero behind a minus sign. It is no other number than zero, but some tell the two apart. -/
  | minusZero
  | string (value : String)
  | array (items : List Json)
  | object (members : List (String × Json))
deriving Inhabited, Repr

namespace Json

/-! ## Equality -/

mutual

def same : Json → Json → Bool
  | .null, .null | .minusZero, .minusZero => true
  | .bool a, .bool b => a = b
  | .number a, .number b => a = b
  | .string a, .string b => a = b
  | .array a, .array b => sameItems a b
  | .object a, .object b => sameMembers a b
  | _, _ => false

def sameItems : List Json → List Json → Bool
  | [], [] => true
  | a :: as, b :: bs => same a b && sameItems as bs
  | _, _ => false

def sameMembers : List (String × Json) → List (String × Json) → Bool
  | [], [] => true
  | (m, a) :: as, (n, b) :: bs => m = n && same a b && sameMembers as bs
  | _, _ => false

end

mutual

theorem same_iff : ∀ a b : Json, same a b = true ↔ a = b := by
  intro a b
  cases a <;> cases b <;> simp [same, sameItems_iff, sameMembers_iff]

theorem sameItems_iff : ∀ as bs : List Json, sameItems as bs = true ↔ as = bs
  | [], [] => by simp [sameItems]
  | [], _ :: _ => by simp [sameItems]
  | _ :: _, [] => by simp [sameItems]
  | a :: as, b :: bs => by simp [sameItems, same_iff a b, sameItems_iff as bs]

theorem sameMembers_iff : ∀ as bs : List (String × Json), sameMembers as bs = true ↔ as = bs
  | [], [] => by simp [sameMembers]
  | [], _ :: _ => by simp [sameMembers]
  | _ :: _, [] => by simp [sameMembers]
  | (m, a) :: as, (n, b) :: bs => by
    simp [sameMembers, same_iff a b, sameMembers_iff as bs]

end

instance : DecidableEq Json := fun a b => decidable_of_iff _ (same_iff a b)

/-! ## Text -/

mutual

def compact : Json → String
  | .null => "null"
  | .bool value => if value then "true" else "false"
  | .number value => value.json
  | .minusZero => "0"
  | .string value => Text.quote value
  | .array items => "[" ++ Text.join "," (compactItems items) ++ "]"
  | .object members => "\x7b" ++ Text.join "," (compactMembers members) ++ "\x7d"

def compactItems : List Json → List String
  | [] => []
  | item :: rest => compact item :: compactItems rest

def compactMembers : List (String × Json) → List String
  | [] => []
  | (name, value) :: rest => (Text.quote name ++ ":" ++ compact value) :: compactMembers rest

end

/-! ## Members -/

def member? (name : String) : Json → Option Json
  | .object members => members.lookup name
  | _ => none

/-- The members with one set: in its old place, or else at the end. -/
def setMember (name : String) (value : Json) : List (String × Json) → List (String × Json)
  | [] => [(name, value)]
  | (other, old) :: rest =>
    if other = name then (name, value) :: rest else (other, old) :: setMember name value rest

/-- The place that a name spells, if it spells one: a natural number below `2 ^ 32 - 1` in digits, with no
zero in front of others. -/
def place? (name : String) : Option Nat :=
  let digits := name.toList
  let value := digits.foldl (fun n c => n * 10 + (c.toNat - 48)) 0
  if digits.all Char.isDigit && !digits.isEmpty && (digits.head? != some '0' || name == "0")
    && value < twoTo 32 - 1 then some value
  else none

/-- The object of the members given. Of two with the same name the later counts, at the place of the
earlier; names that spell places come first, by their places. -/
def ofMembers (members : List (String × Json)) : Json :=
  let distinct := members.foldl (fun done (name, value) => setMember name value done) []
  let (placed, others) := distinct.partition fun (name, _) => (place? name).isSome
  .object (placed.mergeSort (fun a b => (place? a.1).getD 0 ≤ (place? b.1).getD 0) ++ others)

/-! ## Merging -/

/-- The member that names what a table inherits from, which nothing can be laid over. -/
def rootName : String := "__proto__"

mutual

/-- One document laid over another: objects member by member, anything else replaced. -/
def merge (base : Json) : Json → Json
  | .object members =>
    match base with
    | .object old => .object (mergeMembers old members)
    | _ => .object (mergeMembers [] members)
  | given => given

def mergeMembers (old : List (String × Json)) : List (String × Json) → List (String × Json)
  | [] => old
  | (name, value) :: rest =>
    if name = rootName then mergeMembers old rest
    else mergeMembers (setMember name (merge ((old.lookup name).getD .null) value) old) rest

end

end Json

end Retarget
