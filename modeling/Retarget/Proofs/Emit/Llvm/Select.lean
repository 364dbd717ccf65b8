import Retarget.Emit.Llvm.Module
import Retarget.Proofs.Checked

/-!
# What instruction selection writes

The code of an intermediate instruction defines new temporaries one after another, and at its end perhaps the
value of the register that the instruction writes. It uses what it defined before, values of registers that the
instruction reads, and slots of registers that it mentions.
-/
namespace Retarget.Llvm

open List

/-! ## Names in code -/

def Operand.name? : Operand → Option Name
  | .name defined => some defined
  | .constant _ => none

@[simp] def Expression.operands : Expression → List Operand
  | .allocate _ => []
  | .load _ address => [address]
  | .binary _ _ lhs rhs | .compare _ _ lhs rhs => [lhs, rhs]
  | .cast _ _ value _ => [value]
  | .select condition _ whenTrue whenFalse => [condition, whenTrue, whenFalse]
  | .elementAddress _ base index => [base, index]
  | .call _ _ arguments => arguments.map Prod.snd

namespace Instruction

def operands : Instruction → List Operand
  | .define _ expression | .evaluate expression => expression.operands
  | .store _ value address => [value, address]
  | .branchIf condition _ _ => [condition]
  | .ret _ value => [value]
  | .branch _ | .retVoid | .unreachable => []

def uses (i : Instruction) : List Name := i.operands.filterMap Operand.name?

def defines? : Instruction → Option Name
  | .define name _ => some name
  | _ => none

def targets : Instruction → List String
  | .branch label => [label]
  | .branchIf _ whenTrue whenFalse => [whenTrue, whenFalse]
  | _ => []

end Instruction

def definitions (code : List Instruction) : List Name := code.filterMap Instruction.defines?

@[simp] theorem definitions_append (code code' : List Instruction) :
    definitions (code ++ code') = definitions code ++ definitions code' :=
  filterMap_append

/-- Every name is known, or defined before it is used. -/
def Supplied (known : Name → Prop) : List Instruction → Prop
  | [] => True
  | i :: rest => (∀ name ∈ i.uses, known name) ∧ Supplied (fun name => known name ∨ i.defines? = some name) rest

variable {known : Name → Prop} {ctx : Context}

section
variable {known' : Name → Prop} {code code' : List Instruction}

theorem Supplied.mono (h : Supplied known code) (hknown : ∀ name, known name → known' name) : Supplied known' code := by
  induction code generalizing known known' with
  | nil => trivial
  | cons i _ ih => exact ⟨fun name hname => hknown name (h.1 name hname), ih h.2 fun name => Or.imp_left (hknown name)⟩

theorem supplied_append :
    Supplied known (code ++ code') ↔
      Supplied known code ∧ Supplied (fun name => known name ∨ name ∈ definitions code) code' := by
  induction code generalizing known with
  | nil => simp [Supplied, definitions]
  | cons i rest ih =>
    have hiff : ∀ name, ((known name ∨ i.defines? = some name) ∨ name ∈ definitions rest) ↔
        known name ∨ name ∈ definitions (i :: rest) := fun name => by
      cases hdefines : i.defines? <;> simp [definitions, hdefines, eq_comm, or_assoc]
    simp only [cons_append, Supplied, ih, hiff, and_assoc]

/-- What is used in the middle of code is known, or defined before it. -/
theorem Supplied.known_or_defined {before after i} (h : Supplied known (before ++ i :: after)) {name}
    (hname : name ∈ i.uses) : known name ∨ name ∈ definitions before :=
  (supplied_append.mp h).2.1 name hname

end

/-- The temporaries with numbers above the first bound, and not above the second. -/
def temporaries (low high : Nat) : List Name := (List.range' (low + 1) (high - low)).map .temporary

theorem temporaries_append (h : low ≤ middle) (h' : middle ≤ high) :
    temporaries low middle ++ temporaries middle high = temporaries low high := by
  unfold temporaries
  rw [← map_append, show middle + 1 = low + 1 + (middle - low) by omega, range'_append_1,
    show middle - low + (high - middle) = high - low by omega]

/-! ## Runs of the selection -/

namespace Select

variable {α β : Type} {c c' : List Instruction} {s s' : Session}

/-- The selection gives a result and goes on from one state, the code written so far and the session, to
another. -/
def Gives (x : Select α) (c : List Instruction) (s : Session) (a : α) (c' : List Instruction) (s' : Session) : Prop :=
  (x.run c).run s = .ok ((a, c'), s')

@[simp] theorem gives_pure : Gives (pure a) c s b c' s' ↔ b = a ∧ c' = c ∧ s' = s := by
  show (Except.ok ((a, c), s) : Except Halt _) = .ok ((b, c'), s') ↔ _
  simp [eq_comm, and_assoc]

@[simp] theorem gives_bind {f : α → Select β} :
    Gives (x >>= f) c s b c' s' ↔ ∃ a d t, Gives x c s a d t ∧ Gives (f a) d t b c' s' := by
  show ((x.run c).run s >>= fun result => ((f result.1.1).run result.1.2).run result.2) = _ ↔ _
  rw [Checked.bind_eq_ok]
  exact ⟨fun ⟨⟨⟨a, d⟩, t⟩, hx, hf⟩ => ⟨a, d, t, hx, hf⟩, fun ⟨a, d, t, hx, hf⟩ => ⟨((a, d), t), hx, hf⟩⟩

@[simp] theorem gives_fault {fault} {a : α} : ¬ Gives (Select.fault fault) c s a c' s' := by
  intro h
  cases h

@[simp] theorem gives_check : Gives (check x) c s a c' s' ↔ x = .ok a ∧ c' = c ∧ s' = s := by
  cases x with
  | error =>
    constructor
    · intro h
      cases h
    · rintro ⟨h, -⟩
      cases h
  | ok value =>
    show (Except.ok ((value, c), s) : Except Halt _) = .ok ((a, c'), s') ↔ _
    simp [eq_comm, and_assoc]

@[simp] theorem gives_write : Gives (write i) c s u c' s' ↔ c' = c ++ [i] ∧ s' = s := by
  show (Except.ok (((), c ++ [i]), s) : Except Halt _) = .ok ((u, c'), s') ↔ _
  simp [eq_comm]

theorem gives_temporary :
    Gives (temporary expr) c s o c' s' ↔ o = .name (.temporary (s.numbers + 1)) ∧
      c' = c ++ [.define (.temporary (s.numbers + 1)) expr] ∧ s' = { s with numbers := s.numbers + 1 } := by
  show (Except.ok ((Operand.name (.temporary (s.numbers + 1)), c ++ [.define (.temporary (s.numbers + 1)) expr]),
    { s with numbers := s.numbers + 1 }) : Except Halt _) = .ok ((o, c'), s') ↔ _
  simp [eq_comm, and_assoc]

theorem gives_useExternal :
    Gives (StateT.lift (Emit.useExternal name)) c s text c' s' ↔ text = name ∧ c' = c ∧
      s' = { s with externals := s.externals ++ [name] } := by
  show (Except.ok ((name, c), { s with externals := s.externals ++ [name] }) : Except Halt _) = .ok ((text, c'), s') ↔ _
  simp [eq_comm, and_assoc]

end Select

open Select

/-! ## Code that computes operands -/

/-- Code was written that computes new temporaries, from what is known and what was defined before. -/
def Grows (known : Name → Prop) (c : List Instruction) (s : Session) (c' : List Instruction) (s' : Session) : Prop :=
  ∃ new, c' = c ++ new ∧ s.numbers ≤ s'.numbers ∧ definitions new = temporaries s.numbers s'.numbers ∧
    (∀ i ∈ new, i.isTerminator = false) ∧ Supplied (fun name => known name ∨ name ∈ definitions c) new

/-- The operand is a constant, or has a name that is known or defined. -/
def Available (known : Name → Prop) (c : List Instruction) (o : Operand) : Prop :=
  ∀ name, o.name? = some name → known name ∨ name ∈ definitions c

/-- What reading the register needs is known. -/
def Context.Reads (ctx : Context) (known : Name → Prop) (r : Register) : Prop :=
  (ctx.storages.get? r.id = some .value → known (.value r.id)) ∧
    (ctx.storages.get? r.id = some .slot → known (.slot r.id))

section
variable {c d c' : List Instruction} {s t s' : Session} {o lhs rhs : Operand} {e : Expression}

theorem Grows.refl (known : Name → Prop) (c : List Instruction) (s : Session) : Grows known c s c s :=
  ⟨[], by simp [definitions, temporaries, Supplied]⟩

theorem Grows.trans (h : Grows known c s d t) (h' : Grows known d t c' s') : Grows known c s c' s' := by
  obtain ⟨new, rfl, hle, hnew, hplain, hsupplied⟩ := h
  obtain ⟨new', rfl, hle', hnew', hplain', hsupplied'⟩ := h'
  refine ⟨new ++ new', by simp, Nat.le_trans hle hle', ?_, ?_, ?_⟩
  · rw [definitions_append, hnew, hnew', temporaries_append hle hle']
  · exact forall_mem_append.mpr ⟨hplain, hplain'⟩
  · refine supplied_append.mpr ⟨hsupplied, hsupplied'.mono fun name => ?_⟩
    rw [definitions_append, mem_append, or_assoc]
    exact id

theorem available_constant (text : String) : Available known c (.constant text) := fun _ h => by cases h

theorem Available.mono (h : Available known c o) (hgrows : Grows known c s c' s') : Available known c' o := by
  obtain ⟨_, rfl, -⟩ := hgrows
  intro name hname
  rw [definitions_append]
  exact (h name hname).imp_right (mem_append_left _)

theorem mem_uses {i : Instruction} : name ∈ i.uses ↔ ∃ o ∈ i.operands, o.name? = some name :=
  mem_filterMap

theorem available_zero (type : Ty) : Available known c (zero type) := by
  cases type <;> exact available_constant _

/-- From code that was written, the selection computes new temporaries, and what it gives is as stated. -/
def Computing {α : Type} (known : Name → Prop) (c : List Instruction) (x : Select α)
    (P : List Instruction → α → Prop) : Prop :=
  ∀ ⦃s a c' s'⦄, Gives x c s a c' s' → Grows known c s c' s' ∧ P c' a

end

namespace Computing

variable {α β : Type} {c : List Instruction} {lhs rhs : Operand} {P : List Instruction → α → Prop}
  {Q : List Instruction → β → Prop}

/-- What was available still is. -/
theorem bind {f : α → Select β} (hx : Computing known c x P)
    (hf : ∀ a d, (∀ {o}, Available known c o → Available known d o) → P d a → Computing known d (f a) Q) :
    Computing known c (x >>= f) Q := by
  intro s b _ _ h
  obtain ⟨a, d, t, ha, hb⟩ := gives_bind.mp h
  obtain ⟨hgrows, hP⟩ := hx ha
  obtain ⟨hgrows', hQ⟩ := hf a d (fun ho => ho.mono hgrows) hP hb
  exact ⟨hgrows.trans hgrows', hQ⟩

theorem pure (h : P c a) : Computing known c (pure a) P := by
  intro s b _ _ hgives
  obtain ⟨rfl, rfl, rfl⟩ := gives_pure.mp hgives
  exact ⟨.refl .., h⟩

theorem fault : Computing known c (Select.fault f) P := fun _ _ _ _ h => (gives_fault h).elim

theorem check : Computing known c (check x) fun d _ => d = c := by
  intro s a _ _ h
  obtain ⟨-, rfl, rfl⟩ := gives_check.mp h
  exact ⟨.refl .., rfl⟩

theorem check_bind {x : Checked α} {f : α → Select β} (h : ∀ a, Computing known c (f a) Q) :
    Computing known c (Select.check x >>= f) Q :=
  check.bind fun a _ _ hd => hd ▸ h a

theorem temporary (he : ∀ o ∈ e.operands, Available known c o) :
    Computing known c (temporary e) (Available known) := by
  intro s o _ _ h
  obtain ⟨rfl, rfl, rfl⟩ := gives_temporary.mp h
  refine ⟨⟨[.define (.temporary (s.numbers + 1)) e], rfl, Nat.le_succ _, ?_, ?_, ?_⟩, fun name hname => ?_⟩
  · simp [definitions, Instruction.defines?, temporaries]
  · simp [Instruction.isTerminator]
  · refine ⟨fun name hname => ?_, trivial⟩
    obtain ⟨o, ho, hname⟩ := mem_uses.mp hname
    exact he o ho name hname
  · cases hname
    exact Or.inr (by simp [definitions, Instruction.defines?])

theorem storageOf {r} : Computing known c (storageOf ctx r) fun d storage =>
    d = c ∧ ctx.storages.get? r.id = some storage := by
  intro s _ _ _ h
  unfold Llvm.storageOf at h
  cases hget : ctx.storages.get? r.id with
  | none =>
    rw [hget] at h
    exact (gives_fault h).elim
  | some =>
    rw [hget] at h
    obtain ⟨rfl, rfl, rfl⟩ := gives_pure.mp h
    exact ⟨.refl .., rfl, rfl⟩

theorem use (hr : ctx.Reads known r) : Computing known c (use ctx r) (Available known) := by
  refine storageOf.bind fun storage d _ hstorage => ?_
  obtain ⟨rfl, hstorage⟩ := hstorage
  cases storage with
  | constant text => exact pure (available_constant text)
  | value =>
    refine pure fun name hname => ?_
    cases hname
    exact Or.inl (hr.1 hstorage)
  | slot =>
    refine check_bind fun type => temporary (forall_mem_singleton.mpr fun name hname => ?_)
    cases hname
    exact Or.inl (hr.2 hstorage)

theorem widen (h : Available known c value) : Computing known c (widen type value) (Available known) :=
  check_bind fun _ => check_bind fun _ => temporary (forall_mem_singleton.mpr h)

/-- Code is written for an expression of operands that are available behind it. -/
@[simp] def Operands (known : Name → Prop) (d : List Instruction) (e : Expression) : Prop :=
  ∀ o ∈ e.operands, Available known d o

theorem fixedPoint {divides type shift} (hlhs : Available known c lhs) (hrhs : Available known c rhs) :
    Computing known c (fixedPoint divides type shift lhs rhs) (Operands known) := by
  refine (widen hlhs).bind fun a _ hmono₁ ha => (widen (hmono₁ hrhs)).bind fun b _ hmono hb => ?_
  cases divides with
  | true =>
    refine (temporary ?_).bind fun scaled _ hmono' hscaled => (temporary ?_).bind fun wide _ _ hwide => ?_
    · simpa [number] using ⟨hmono ha, available_constant _⟩
    · simpa using ⟨hscaled, hmono' hb⟩
    · exact check_bind fun _ => pure (forall_mem_singleton.mpr hwide)
  | false =>
    refine (temporary ?_).bind fun product _ _ hproduct => (temporary ?_).bind fun wide _ _ hwide => ?_
    · simpa using ⟨hmono ha, hb⟩
    · simpa [number] using ⟨hproduct, available_constant _⟩
    · exact check_bind fun _ => pure (forall_mem_singleton.mpr hwide)

theorem shift (hlhs : Available known c lhs) (hrhs : Available known c rhs) :
    Computing known c (shift mnemonic text bits keepsSign lhs rhs) (Operands known) := by
  refine (temporary ?_).bind fun inRange _ hmono₁ hrange => (temporary ?_).bind fun shifted _ hmono₂ hshifted => ?_
  · simpa [number] using ⟨hrhs, available_constant _⟩
  · simpa using ⟨hmono₁ hlhs, hmono₁ hrhs⟩
  · cases keepsSign with
    | true =>
      refine (temporary ?_).bind fun saturated _ hmono₃ hsaturated => pure ?_
      · simpa using ⟨hmono₂ (hmono₁ hlhs), available_constant _⟩
      · simpa using ⟨hmono₃ (hmono₂ hrange), hmono₃ hshifted, hsaturated⟩
    | false => exact pure (by simpa using ⟨hmono₂ hrange, hshifted, available_constant _⟩)

theorem binaryOperation {operator type} (hlhs : Available known c lhs) (hrhs : Available known c rhs) :
    Computing known c (binaryOperation operator type lhs rhs) (Operands known) := by
  have hboth : ∀ {mnemonic text : String}, Operands known c (.binary mnemonic text lhs rhs) := by
    simpa using ⟨hlhs, hrhs⟩
  refine check_bind fun text => check_bind fun bits => ?_
  cases bits with
  | none => exact fault
  | some =>
    refine check_bind fun signed => ?_
    split
    · exact fixedPoint hlhs hrhs
    · exact fixedPoint hlhs hrhs
    · split
      · exact pure hboth
      · unfold signedOperation
        split
        · exact pure hboth
        · exact pure hboth
        · exact shift hlhs hrhs
        · exact shift hlhs hrhs
        · exact fault

theorem conversion {source target} (hvalue : Available known c value) :
    Computing known c (conversion source target value) (Operands known) := by
  unfold Llvm.conversion
  split
  · exact check_bind fun _ => pure (by simpa using ⟨hvalue, available_zero source⟩)
  · split
    · exact pure (forall_mem_singleton.mpr hvalue)
    · refine (widen hvalue).bind fun wide d _ hwide => ?_
      have hshift {mnemonic : String} {by_ : Nat} : Operands known d (.binary mnemonic "i64" wide (number by_)) := by
        simpa [number] using ⟨hwide, available_constant _⟩
      -- to the left, to the right, or not at all
      split
      · exact (temporary hshift).bind fun _ _ _ hshifted => check_bind fun _ => pure (forall_mem_singleton.mpr hshifted)
      · split
        · exact (temporary hshift).bind fun _ _ _ hshifted =>
            check_bind fun _ => pure (forall_mem_singleton.mpr hshifted)
        · exact check_bind fun _ => pure (forall_mem_singleton.mpr hwide)

theorem arguments {registers : List Register} (hreads : ∀ r ∈ registers, ctx.Reads known r) :
    Computing known c (registers.mapM (argument ctx)) fun d values =>
      ∀ o ∈ values.map Prod.snd, Available known d o := by
  induction registers generalizing c with
  | nil => exact pure (by simp)
  | cons r _ ih =>
    obtain ⟨hr, hrest⟩ := forall_mem_cons.mp hreads
    rw [mapM_cons]
    have hfirst : Computing known c (argument ctx r) fun d first => Available known d first.2 :=
      check_bind fun type => (use hr).bind fun value _ _ hvalue => pure hvalue
    refine hfirst.bind fun first _ _ hfirst => ?_
    refine (ih hrest).bind fun others _ hmono hothers => pure ?_
    exact forall_mem_cons.mpr ⟨hmono hfirst, hothers⟩

theorem callee {target} : Computing known c (callee ctx target) fun _ _ => True := by
  unfold Llvm.callee
  split
  · intro s _ _ _ h
    simp only [gives_bind, gives_useExternal, gives_pure] at h
    obtain ⟨_, d, t, ⟨-, rfl, rfl⟩, -, rfl, rfl⟩ := h
    exact ⟨.refl .., trivial⟩
  · split
    · exact check_bind fun _ => check_bind fun _ => pure trivial
    · exact check_bind fun _ => fault

end Computing

/-! ## The code of an instruction -/

def IsPlain (code : List Instruction) : Prop := ∀ i ∈ code, i.isTerminator = false

def IsEnded (code : List Instruction) : Prop :=
  ∃ body last, code = body ++ [last] ∧ IsPlain body ∧ last.isTerminator = true

namespace Context

/-- The name of the register's value, if it is kept under one. -/
def names (ctx : Context) (r : Register) : List Name :=
  if ctx.storages.get? r.id = some .value then [.value r.id] else []

/-- Registers that are not computed under a name by the operation have a storage that it can write. -/
def Suits (ctx : Context) : Operation → Prop
  | .move _ target => ctx.storages.get? target.id = some .slot
  | .step _ register => ctx.storages.get? register.id = some .slot
  | .loadImmediate _ destination | .addressOf _ destination => ctx.storages.get? destination.id ≠ some .value
  | _ => True

end Context

/-- The code of an operation: it defines new temporaries and then the values that the operation writes, it leaves
the block exactly if the operation does, and goes where the operation goes or to the next block. -/
structure Selects (known : Name → Prop) (ctx : Context) (next : Option String) (operation : Operation) (low : Nat)
    (code : List Instruction) (high : Nat) : Prop where
  le : low ≤ high
  defines : definitions code = temporaries low high ++ operation.writes.flatMap ctx.names
  supplied : Supplied known code
  plain : operation.blockRole ≠ .ends → IsPlain code
  ended : operation.blockRole = .ends → IsEnded code
  targets : ∀ i ∈ code, ∀ label ∈ i.targets, operation.jumpTarget? = some label ∨ next = some label ∧ label ≠ ""

section
variable {next : Option String} {op : Operation} {c : List Instruction}

theorem targets_of_plain {i : Instruction} (h : i.isTerminator = false) : i.targets = [] := by
  cases i <;> first | rfl | cases h

/-- Where code was written that computes operands, the selection completes the code of the operation. -/
def Completing (known : Name → Prop) (ctx : Context) (next : Option String) (op : Operation) (c : List Instruction)
    (x : Select Unit) : Prop :=
  ∀ ⦃s t u code s'⦄, Grows known [] s c t → Gives x c t u code s' →
    Selects known ctx next op s.numbers code s'.numbers

theorem Computing.completing {α : Type} {P : List Instruction → α → Prop} {x} {f : α → Select Unit}
    (hx : Computing known c x P) (hf : ∀ a d, (∀ {o}, Available known c o → Available known d o) → P d a →
      Completing known ctx next op d (f a)) : Completing known ctx next op c (x >>= f) := by
  intro s t u _ _ h hgives
  obtain ⟨a, d, _, ha, hb⟩ := gives_bind.mp hgives
  obtain ⟨hgrows, hP⟩ := hx ha
  exact hf a d (fun ho => ho.mono hgrows) hP (h.trans hgrows) hb

namespace Completing

theorem check {α : Type} {x : Checked α} {f : α → Select Unit} (h : ∀ a, Completing known ctx next op c (f a)) :
    Completing known ctx next op c (check x >>= f) :=
  Computing.check.completing fun a _ _ hd => hd ▸ h a

theorem use {f : Operand → Select Unit} (hr : ctx.Reads known r)
    (h : ∀ o d, (∀ {o}, Available known c o → Available known d o) → Available known d o →
      Completing known ctx next op d (f o)) : Completing known ctx next op c (use ctx r >>= f) :=
  (Computing.use hr).completing h

theorem fault : Completing known ctx next op c (Select.fault f) := fun _ _ _ _ _ _ h => (gives_fault h).elim

/-- An instruction behind code that computes its operands. -/
theorem finish (h : Grows known [] s c t) {i : Instruction} (hi : ∀ o ∈ i.operands, Available known c o) :
    s.numbers ≤ t.numbers ∧ definitions (c ++ [i]) = temporaries s.numbers t.numbers ++ i.defines?.toList ∧
      Supplied known (c ++ [i]) ∧ IsPlain c := by
  obtain ⟨_, rfl, hle, hnew, hplain, hsupplied⟩ := h
  refine ⟨hle, ?_, ?_, hplain⟩
  · rw [definitions_append, hnew]
    cases hdefines : i.defines? <;> simp [definitions, hdefines]
  · refine supplied_append.mpr ⟨hsupplied.mono fun name => by simp [definitions], fun name hname => ?_, trivial⟩
    obtain ⟨o, ho, hname⟩ := mem_uses.mp hname
    exact hi o ho name hname

/-- An operation that leaves the block, with the operands of its terminator computed before. -/
theorem leave {i} (hi : ∀ o ∈ i.operands, Available known c o) (hterminator : i.isTerminator = true)
    (hrole : op.blockRole = .ends) (hwrites : op.writes = [])
    (htargets : ∀ label ∈ i.targets, op.jumpTarget? = some label ∨ next = some label ∧ label ≠ "") :
    Completing known ctx next op c (write i) := by
  intro s t u _ _ h hwrite
  obtain ⟨rfl, rfl⟩ := gives_write.mp hwrite
  obtain ⟨hle, hdefines, hsupplied, hplain⟩ := finish h hi
  refine ⟨hle, ?_, hsupplied, fun hother => absurd hrole hother, fun _ => ⟨c, i, rfl, hplain, hterminator⟩, ?_⟩
  · rw [hdefines, hwrites]
    cases i <;> first | rfl | cases hterminator
  · refine forall_mem_append.mpr ⟨fun j hj label hlabel => ?_, forall_mem_singleton.mpr htargets⟩
    rw [targets_of_plain (hplain j hj)] at hlabel
    cases hlabel

/-- An operation that stays in the block, with what its last instruction uses computed before. -/
theorem write {i} (hi : ∀ o ∈ i.operands, Available known c o) (hplain : i.isTerminator = false)
    (hrole : op.blockRole ≠ .ends) (hdefines : i.defines?.toList = op.writes.flatMap ctx.names) :
    Completing known ctx next op c (write i) := by
  intro s t u _ _ h hwrite
  obtain ⟨rfl, rfl⟩ := gives_write.mp hwrite
  obtain ⟨hle, hall, hsupplied, hbody⟩ := finish h hi
  have hcode : IsPlain (c ++ [i]) := forall_mem_append.mpr ⟨hbody, forall_mem_singleton.mpr hplain⟩
  refine ⟨hle, hdefines ▸ hall, hsupplied, fun _ => hcode, fun hends => absurd hends hrole, fun j hj label hlabel => ?_⟩
  rw [targets_of_plain (hcode j hj)] at hlabel
  cases hlabel

/-- An operation whose result is written nowhere, since a constant stands for it. -/
theorem nothing (hrole : op.blockRole ≠ .ends) (hnames : op.writes.flatMap ctx.names = []) :
    Completing known ctx next op c (pure ()) := by
  intro s t u _ _ h hpure
  obtain ⟨-, rfl, rfl⟩ := gives_pure.mp hpure
  obtain ⟨_, rfl, hle, hnew, hplain, hsupplied⟩ := h
  refine ⟨hle, by rw [hnames, append_nil]; exact hnew, hsupplied.mono fun name => by simp [definitions],
    fun _ => hplain, fun hends => absurd hends hrole, fun j hj label hlabel => ?_⟩
  rw [targets_of_plain (hplain j hj)] at hlabel
  cases hlabel

theorem available_slot {r} (h : known (.slot r.id)) : Available known c (slotOf r) := fun name hname => by
  cases hname
  exact Or.inl h

/-- The register that an operation computes gets its value. -/
theorem define (he : ∀ o ∈ e.operands, Available known c o) (hrole : op.blockRole ≠ .ends) (hwrites : op.writes = [r])
    (hslot : ctx.storages.get? r.id = some .slot → known (.slot r.id)) :
    Completing known ctx next op c (define ctx r e) := by
  have hnames : op.writes.flatMap ctx.names = ctx.names r := by rw [hwrites, flatMap_singleton]
  refine Computing.storageOf.completing fun storage d _ hstorage => ?_
  obtain ⟨rfl, hstorage⟩ := hstorage
  cases storage with
  | constant => exact nothing hrole (by rw [hnames, Context.names, if_neg (by rw [hstorage]; simp)])
  | value =>
    refine write he rfl hrole ?_
    rw [hnames, Context.names, if_pos hstorage]
    rfl
  | slot =>
    refine check fun type => (Computing.temporary he).completing fun value _ _ hvalue => write ?_ rfl hrole ?_
    · simpa [Instruction.operands] using ⟨hvalue, available_slot (hslot hstorage)⟩
    · rw [hnames, Context.names, if_neg (by rw [hstorage]; decide)]
      rfl

/-- A constant is stored, or stands for the register wherever it is used. -/
theorem defineConstant (hrole : op.blockRole ≠ .ends) (hwrites : op.writes = [r])
    (hslot : ctx.storages.get? r.id = some .slot → known (.slot r.id)) (hvalue : ctx.storages.get? r.id ≠ some .value) :
    Completing known ctx next op c (defineConstant ctx r type text) := by
  have hnames : op.writes.flatMap ctx.names = [] := by
    rw [hwrites, flatMap_singleton, Context.names, if_neg hvalue]
  refine Computing.storageOf.completing fun storage d _ hstorage => ?_
  obtain ⟨rfl, hstorage⟩ := hstorage
  cases storage with
  | slot =>
    refine check fun type => check fun value => write ?_ rfl hrole hnames.symm
    simpa [Instruction.operands] using ⟨available_constant value, available_slot (hslot hstorage)⟩
  | constant _ | value => exact nothing hrole hnames

/-- What the selection of an operation writes, where all that the operation mentions is stored as it has to be. -/
theorem select (hsuits : ctx.Suits op) (hreads : ∀ r ∈ op.reads, ctx.Reads known r)
    (hslots : ∀ r ∈ op.writes, ctx.storages.get? r.id = some .slot → known (.slot r.id)) :
    Completing known ctx next op [] (select ctx next op) := by
  cases op with
  | loadImmediate _ destination | addressOf _ destination =>
    exact defineConstant nofun rfl (hslots destination (.head _)) hsuits
  | move source target =>
    refine use (hreads source (.head _)) fun value _ _ hvalue => check fun type => write ?_ rfl nofun ?_
    · simpa [Instruction.operands] using ⟨hvalue, available_slot (hslots target (.head _) hsuits)⟩
    · rw [Operation.writes, flatMap_singleton, Context.names, if_neg (by rw [hsuits]; decide)]
      rfl
  | binary _ lhs rhs destination =>
    refine use (hreads lhs (.head _)) fun first _ _ hlhs => ?_
    refine use (hreads rhs (.tail _ (.head _))) fun second _ hmono hrhs => ?_
    refine (Computing.binaryOperation (hmono hlhs) hrhs).completing fun e _ _ he => ?_
    exact define he nofun rfl (hslots destination (.head _))
  | compare _ lhs rhs destination =>
    refine use (hreads lhs (.head _)) fun first _ _ hlhs => ?_
    refine use (hreads rhs (.tail _ (.head _))) fun second _ hmono hrhs => ?_
    refine check fun signed => check fun predicate => check fun type => ?_
    exact define (by simpa using ⟨hmono hlhs, hrhs⟩) nofun rfl (hslots destination (.head _))
  | testZero source _ destination =>
    refine use (hreads source (.head _)) fun value _ _ hvalue => check fun type => ?_
    exact define (by simpa using ⟨hvalue, available_zero source.type⟩) nofun rfl (hslots destination (.head _))
  | convert source target =>
    refine use (hreads source (.head _)) fun value _ _ hvalue => ?_
    refine (Computing.conversion hvalue).completing fun e _ _ he => ?_
    exact define he nofun rfl (hslots target (.head _))
  | step dir register =>
    show Completing known ctx next _ [] (step ctx dir register)
    unfold step
    dsimp only
    split
    · exact check fun _ => Computing.fault.completing fun _ _ _ => False.elim
    · refine use (hreads register (.head _)) fun value _ _ hvalue => ?_
      refine check fun amount => check fun type => ?_
      exact define (by simpa using ⟨hvalue, available_constant amount.text⟩) nofun rfl (hslots register (.head _))
  | label => exact nothing nofun rfl
  | goto label =>
    exact leave (i := .branch label) (forall_mem_nil _) rfl rfl rfl (forall_mem_singleton.mpr (Or.inl rfl))
  | gotoIfFalse condition label =>
    show Completing known ctx next _ [] (branchUnless ctx condition label next)
    unfold branchUnless
    split
    · exact fault
    · exact fault
    · rename_i following hfollowing
      refine use (hreads condition (.head _)) fun test _ _ htest => ?_
      refine leave (forall_mem_singleton.mpr htest) rfl rfl rfl (forall_mem_cons.mpr ⟨Or.inr ⟨rfl, hfollowing⟩, ?_⟩)
      exact forall_mem_singleton.mpr (Or.inl rfl)
  | call _ _ destination =>
    refine (Computing.arguments hreads).completing fun values _ _ hvalues => ?_
    refine Computing.callee.completing fun name _ hmono _ => ?_
    have hvalues : ∀ o ∈ values.map Prod.snd, Available known _ o := fun o ho => hmono (hvalues o ho)
    cases destination with
    | none => exact write hvalues rfl nofun rfl
    | some r => exact define hvalues nofun rfl (hslots r (.head _))
  | ret register =>
    cases register with
    | none => exact leave (i := .retVoid) (forall_mem_nil _) rfl rfl rfl (forall_mem_nil _)
    | some r =>
      refine check fun type => use (hreads r (.head _)) fun value _ _ hvalue => ?_
      exact leave (forall_mem_singleton.mpr hvalue) rfl rfl rfl (forall_mem_nil _)
  | arrayIndex base index destination =>
    refine use (hreads base (.head _)) fun start _ _ hstart => ?_
    refine use (hreads index (.tail _ (.head _))) fun position _ hmono hposition => ?_
    refine (Computing.widen hposition).completing fun offset _ hmono' hoffset => ?_
    refine check fun element => check fun type => ?_
    exact define (by simpa using ⟨hmono' (hmono hstart), hoffset⟩) nofun rfl (hslots destination (.head _))
  | load address destination =>
    refine use (hreads address (.head _)) fun ptr _ _ hptr => check fun type => ?_
    exact define (forall_mem_singleton.mpr hptr) nofun rfl (hslots destination (.head _))
  | store address value =>
    refine use (hreads address (.head _)) fun ptr _ _ hptr => ?_
    refine use (hreads value (.tail _ (.head _))) fun stored _ hmono hstored => check fun type => ?_
    exact write (by simpa [Instruction.operands] using ⟨hstored, hmono hptr⟩) rfl nofun rfl
  | unknown => exact fault

end Completing

end

end Retarget.Llvm
