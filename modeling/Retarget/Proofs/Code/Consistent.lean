import Mathlib.Tactic.MkIffOfInductiveProp
import Retarget.Proofs.Ty.Range
import Retarget.Run.Memory

/-!
# Type-consistent programs

What is asked of a program so that its types mean something: every register has one type, operations join
registers of fitting types, calls and returns agree with the procedures they concern, and data starts out
inside the ranges of its types. Beside it stands what it means for a value to fit a type.
-/
namespace Retarget

open List

namespace Ty

/-- The type of one cell: an array's elements are its cells, anything else is a cell itself. -/
def cell : Ty → Ty
  | .array of _ => of
  | type => type

/-- Integers come in four widths only. -/
def HasWidth : Ty → Prop
  | .integer bits _ => IsWidth bits
  | _ => True

instance : (type : Ty) → Decidable type.HasWidth
  | .integer bits _ => inferInstanceAs (Decidable (IsWidth bits))
  | .fixed _ | .boolean | .void | .string | .pointer _ | .array .. | .parameter _ | .unknown _ => .isTrue trivial

end Ty

/-- An offset that whole distances lead to. -/
def Number.IsPlace : Number → Prop
  | .dyadic _ scale => scale = 0
  | .infinite _ => True
  | .nan => False

/-! ## Values of types -/

namespace Program

/-- The block has cells of the type. Strings are the only data that is no variable. -/
def Places (p : Program) (type : Ty) (block : String) : Prop :=
  (∃ g ∈ p.globals, g.qualifiedName = block ∧ g.type.cell = type) ∨
    type = .string ∧ ∃ s ∈ p.literals, s.name = block

/-- The value fits a cell of the type: a number in its range, or a pointer, which is zero or leads to cells of
the type pointed to. The cells of a string hold its length and a pointer. -/
def CellFits (p : Program) : Ty → Value → Prop
  | .pointer _, .number x => x = 0
  | .pointer inner, .pointer block offset => offset.IsPlace ∧ p.Places inner.cell block
  | .string, .number x => x.IsWhole
  | .string, .pointer .. => True
  | type, .number x => ∃ n, x = .dyadic n 0 ∧ type.Holds n
  | _, _ => False

/-- The value fits the type; one of an array's type is an element. -/
def Fits (p : Program) (type : Ty) (v : Value) : Prop := p.CellFits type.cell v

end Program

/-! ## Consistency -/

/-- A register for values of the type, or none if there are no values. -/
def Ty.Carried (type : Ty) : Option Register → Prop
  | none => type = .void
  | some r => r.type = type ∧ type ≠ .void

namespace Operation

def mentions (operation : Operation) : List Register := operation.reads ++ operation.writes

def labelName? : Operation → Option String
  | .label name => some name
  | _ => none

/-- The operation joins registers of fitting types, in a procedure of the given return type. -/
def Consistent (p : Program) (returnType : Ty) : Operation → Prop
  | .loadImmediate value destination => p.Fits destination.type (.number value)
  | .move source target => source.type = target.type
  | .binary _ lhs rhs destination => lhs.type = destination.type ∧ rhs.type = destination.type
  | .compare _ lhs rhs destination => lhs.type = rhs.type ∧ destination.type = .boolean
  | .testZero _ _ destination => destination.type = .boolean
  | .convert source target => source.type.isPointer = false ∧ target.type.isPointer = false
  | .step _ register => register.type.isNumeric = true
  | .label name => name ≠ ""
  | .goto _ | .gotoIfFalse _ _ => True
  | .call (.function symbol) arguments destination =>
    ∃ g, p.find? symbol = some g ∧
      arguments.map Register.type = g.parameters.map (·.register.type) ∧ g.returnType.Carried destination
  | .call (.routine _) _ _ => True
  | .ret register => returnType.Carried register
  | .addressOf (.global module name) destination =>
    ∃ g ∈ p.globals, g.module = module ∧ g.name = name ∧
      (destination.type = .pointer g.type ∨ destination.type = .pointer g.type.cell)
  | .addressOf (.literal index) destination =>
    destination.type = .pointer .string ∧ ∃ s ∈ p.literals, s.index = index
  | .arrayIndex base _ destination => base.type = destination.type
  | .load address destination => address.type = .pointer destination.type
  | .store address value => address.type = .pointer value.type
  | .unknown _ => False

end Operation

def RegisterTable.IsNumbered (table : RegisterTable) : Prop :=
  ∀ (i : Nat) (r : Register), table[i]? = some r → r.id = .natural (i + 1)

/-- A numbered table has one register for every id. -/
theorem RegisterTable.IsNumbered.eq_of_id {table : RegisterTable} (h : table.IsNumbered) (hr : r ∈ table)
    (hs : s ∈ table) (hid : r.id = s.id) : r = s := by
  obtain ⟨i, hi⟩ := mem_iff_getElem?.mp hr
  obtain ⟨j, hj⟩ := mem_iff_getElem?.mp hs
  rw [h i r hi, h j s hj] at hid
  injection hid with hid
  obtain rfl : i = j := by omega
  exact Option.some.inj (hi.symm.trans hj)

theorem RegisterTable.IsNumbered.nodup_ids {table : RegisterTable} (h : table.IsNumbered) :
    (table.map (·.id)).Nodup := by
  refine pairwise_iff_getElem.mpr fun i j hi hj hij heq => ?_
  rw [length_map] at hi hj
  rw [getElem_map, getElem_map, h i _ (getElem?_eq_getElem hi), h j _ (getElem?_eq_getElem hj)] at heq
  injection heq with heq
  omega

theorem RegisterTable.IsNumbered.append_fresh {table : RegisterTable} (h : table.IsNumbered) (type : Ty) :
    RegisterTable.IsNumbered (table ++ [table.fresh type]) := by
  intro i r hi
  rw [getElem?_append] at hi
  split at hi
  · exact h i r hi
  · rename_i hle
    rw [getElem?_singleton] at hi
    split at hi
    · rename_i hzero
      cases hi
      obtain rfl : i = table.length := by omega
      rfl
    · cases hi

@[mk_iff] structure Procedure.Consistent (p : Program) (f : Procedure) : Prop where
  numbered : f.registers.IsNumbered
  widths : ∀ r ∈ f.registers, r.type.HasWidth
  parameters : ∀ q ∈ f.parameters, q.register ∈ f.registers
  distinct : f.parameterIds.Nodup
  mentions : ∀ i ∈ f.instructions, ∀ r ∈ i.operation.mentions, r ∈ f.registers
  labels : (f.instructions.filterMap (·.operation.labelName?)).Nodup
  operations : ∀ i ∈ f.instructions, i.operation.Consistent p f.returnType

/-- A global variable is a scalar or an array of scalars, and starts out with values of its type. -/
@[mk_iff] structure GlobalVariable.Consistent (p : Program) (g : GlobalVariable) : Prop where
  type : g.type.cell.IsRegister
  initializer : ∀ initializer, g.initializer = some initializer →
    ∀ x ∈ initializer.values, p.Fits g.type (.number x)

namespace Program

@[mk_iff] structure Consistent (p : Program) : Prop where
  procedures : ∀ f ∈ p.procedures, f.Consistent p
  globals : ∀ g ∈ p.globals, g.Consistent p

def blockNames (p : Program) : List String :=
  p.globals.map GlobalVariable.qualifiedName ++ p.literals.flatMap fun s => [s.name, s.dataName]

end Program

/-! ## Deciding consistency -/

instance (x : Number) : Decidable x.IsPlace := by
  unfold Number.IsPlace
  split <;> infer_instance

instance (x : Number) (P : Int → Prop) [DecidablePred P] : Decidable (∃ n, x = .dyadic n 0 ∧ P n) :=
  match x with
  | .dyadic n 0 => decidable_of_iff (P n) (by simp)
  | .dyadic _ (_ + 1) | .infinite _ | .nan => isFalse (by simp)

instance (x : Number) : Decidable x.IsWhole :=
  decidable_of_iff (∃ n, x = .dyadic n 0 ∧ True) (by simp [Number.IsWhole])

instance (type : Ty) (register : Option Register) : Decidable (type.Carried register) := by
  unfold Ty.Carried
  split <;> infer_instance

namespace Program

variable (p : Program)

instance (type : Ty) (block : String) : Decidable (p.Places type block) :=
  inferInstanceAs (Decidable ((∃ g ∈ p.globals, g.qualifiedName = block ∧ g.type.cell = type) ∨
    type = .string ∧ ∃ s ∈ p.literals, s.name = block))

instance : (type : Ty) → (v : Value) → Decidable (p.CellFits type v)
  | .pointer _, .number x => inferInstanceAs (Decidable (x = 0))
  | .pointer inner, .pointer block offset =>
    inferInstanceAs (Decidable (offset.IsPlace ∧ p.Places inner.cell block))
  | .string, .number x => inferInstanceAs (Decidable x.IsWhole)
  | .string, .pointer .. => .isTrue trivial
  | .integer .., .number x | .fixed _, .number x | .boolean, .number x | .void, .number x | .array .., .number x
  | .parameter _, .number x | .unknown _, .number x =>
    inferInstanceAs (Decidable (∃ n, x = .dyadic n 0 ∧ Ty.Holds _ n))
  | .integer .., .pointer .. | .fixed _, .pointer .. | .boolean, .pointer .. | .void, .pointer ..
  | .array .., .pointer .. | .parameter _, .pointer .. | .unknown _, .pointer .. | _, .null =>
    .isFalse (by simp [CellFits])

instance (type : Ty) (v : Value) : Decidable (p.Fits type v) :=
  inferInstanceAs (Decidable (p.CellFits type.cell v))

instance (returnType : Ty) (operation : Operation) : Decidable (operation.Consistent p returnType) := by
  unfold Operation.Consistent
  split
  case h_11 symbol _ _ => exact inferInstanceAs (Decidable (∃ g ∈ p.find? symbol, _))
  all_goals infer_instance

instance (table : RegisterTable) : Decidable table.IsNumbered :=
  decidable_of_iff (∀ entry ∈ table.zipIdx, entry.1.id = .natural (entry.2 + 1)) (by
    simp only [RegisterTable.IsNumbered, Prod.forall, List.mk_mem_zipIdx_iff_getElem?]
    exact forall_comm)

instance (f : Procedure) : Decidable (f.Consistent p) := decidable_of_iff' _ (Procedure.consistent_iff p f)

instance (g : GlobalVariable) : Decidable (g.Consistent p) :=
  decidable_of_iff (g.type.cell.IsRegister ∧
    ∀ initializer ∈ g.initializer, ∀ x ∈ initializer.values, p.Fits g.type (.number x))
    (GlobalVariable.consistent_iff p g).symm

instance : Decidable p.Consistent := decidable_of_iff' _ (consistent_iff p)

end Program

end Retarget
