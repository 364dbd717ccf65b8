import Retarget.Proofs.Optimize.Peephole

/-!
# Renumbered registers

Simplification asks which registers are the same, never which numbers they have. Give the registers of a procedure
other numbers, different ones to different registers: the same patterns apply, in the same order, and what they leave
is the same code with the numbers exchanged (`peepholeTrace_renumber`).
-/
namespace Retarget

open Peephole List

/-- The register under the number that the map gives it. -/
def Register.renumber (φ : Numeral → Numeral) (r : Register) : Register := { r with id := φ r.id }

def Instruction.renumber (φ : Numeral → Numeral) (i : Instruction) : Instruction :=
  { i with operation := i.operation.mapRegisters (Register.renumber φ) }

/-- The procedure with other numbers for its registers: in its code, in its table and where parameters are bound. -/
def Procedure.renumber (φ : Numeral → Numeral) (f : Procedure) : Procedure :=
  { f with
    parameters := f.parameters.map fun q => { q with register := q.register.renumber φ }
    registers := f.registers.map (Register.renumber φ)
    instructions := f.instructions.map (Instruction.renumber φ) }

/-! ## Operations -/

namespace Operation

variable (ρ : Register → Register) (operation : Operation)

theorem reads_mapRegisters : (operation.mapRegisters ρ).reads = operation.reads.map ρ := by
  rw [mapRegisters, reads_mapWrites, reads_mapReads]

theorem writes_mapRegisters : (operation.mapRegisters ρ).writes = operation.writes.map ρ := by
  cases operation with
  | call _ _ dest => cases dest <;> rfl
  | _ => rfl

theorem plainDestination?_mapRegisters : plainDestination? (op.mapRegisters ρ) = (plainDestination? op).map ρ := by
  cases op with
  | call _ _ dest => cases dest <;> rfl
  | _ => rfl

theorem jumpTarget?_mapRegisters : (operation.mapRegisters ρ).jumpTarget? = operation.jumpTarget? := by
  cases operation <;> rfl

theorem isLabel_mapRegisters : (operation.mapRegisters ρ).isLabel = operation.isLabel := by
  cases operation <;> rfl

theorem known_mapRegisters (place : String) : (operation.mapRegisters ρ).known place = operation.known place := by
  cases operation <;> rfl

theorem mapWrites_mapRegisters (target : Register) :
    (operation.mapRegisters ρ).mapWrites (fun _ => ρ target) =
      (operation.mapWrites fun _ => target).mapRegisters ρ := by
  cases operation with
  | call _ _ dest => cases dest <;> rfl
  | _ => rfl

/-- Reads can be exchanged before or behind the renaming. -/
theorem mapReads_mapRegisters {σ σ' : Register → Register} (h : ∀ r, σ' (ρ r) = ρ (σ r)) :
    (operation.mapRegisters ρ).mapReads σ' = (operation.mapReads σ).mapRegisters ρ := by
  cases operation with
  | ret reg => cases reg <;> simp [mapRegisters, mapReads, mapWrites, h]
  | _ => simp [mapRegisters, mapReads, mapWrites, h]

end Operation

namespace Peephole

/-! ## Facts -/

def Facts.renumber (φ : Numeral → Numeral) (facts : Facts) : Facts :=
  ⟨facts.instructions.map (Instruction.renumber φ), facts.parameters.map φ⟩

variable {φ : Numeral → Numeral}

theorem Facts.isReferenced_renumber (facts : Facts) (label : String) :
    (facts.renumber φ).isReferenced label = facts.isReferenced label := by
  have htarget : ((·.operation.jumpTarget? == some label) ∘ Instruction.renumber φ) =
      fun i : Instruction => i.operation.jumpTarget? == some label :=
    funext fun i => congrArg (· == some label) (i.operation.jumpTarget?_mapRegisters _)
  rw [isReferenced, isReferenced, renumber, any_map, htarget]

variable (hφ : Function.Injective φ)
include hφ

theorem same_renumber (r s : Register) : (r.renumber φ).same (s.renumber φ) = r.same s := by
  rw [Bool.eq_iff_iff, Register.same_iff, Register.same_iff]
  exact hφ.eq_iff

/-- The registers that a list of instructions names are as many under other numbers. -/
theorem countP_renumber (named : Instruction → List Register)
    (hnamed : ∀ i, named (i.renumber φ) = (named i).map (Register.renumber φ)) (is : List Instruction) (r : Register) :
    ((is.map (Instruction.renumber φ)).flatMap named).countP (·.same (r.renumber φ)) =
      (is.flatMap named).countP (·.same r) := by
  have hsame : ((·.same (r.renumber φ)) ∘ Register.renumber φ) = fun s => s.same r :=
    funext fun s => same_renumber hφ s r
  rw [flatMap_map, flatMap_congr fun i _ => hnamed i, ← map_flatMap, countP_map, hsame]

theorem Facts.isSingleUse_renumber (facts : Facts) (r : Register) :
    (facts.renumber φ).isSingleUse (r.renumber φ) = facts.isSingleUse r := by
  have hparams : (facts.parameters.map φ).contains (φ r.id) = facts.parameters.contains r.id := by
    rw [Bool.eq_iff_iff, contains_iff_mem, contains_iff_mem]
    exact mem_map_of_injective hφ
  have hreads := countP_renumber hφ Instruction.reads (fun i => i.operation.reads_mapRegisters _) facts.instructions r
  have hwrites := countP_renumber hφ Instruction.writes (fun i => i.operation.writes_mapRegisters _)
    facts.instructions r
  simp only [isSingleUse, readCount, writeCount]
  exact congrArg₂ _ (congrArg₂ _ (congrArg _ hparams) (congrArg (· == 1) hreads)) (congrArg (· == 1) hwrites)

/-! ## Patterns -/

namespace Pattern

/-- A replacement with the registers renumbered. -/
def renumbered (φ : Numeral → Numeral) (new : Option (List Instruction)) : Option (List Instruction) :=
  new.map (List.map (Instruction.renumber φ))

omit hφ in
theorem ite_renumbered {c c' : Bool} {new new' other other' : Option (List Instruction)} (hc : c' = c)
    (hnew : new' = renumbered φ new) (hother : other' = renumbered φ other) :
    (if c' then new' else other') = renumbered φ (if c then new else other) := by
  subst hc hnew hother
  cases c' <;> rfl

theorem replaceOne?_renumber (facts : Facts) (pattern : Pattern) (i : Instruction) :
    pattern.replaceOne? (facts.renumber φ) (i.renumber φ) = renumbered φ (pattern.replaceOne? facts i) := by
  obtain ⟨op, _⟩ := i
  cases pattern with
  | selfMove =>
    cases op with
    | move => exact ite_renumbered (same_renumber hφ _ _) rfl rfl
    | _ => rfl
  | unreferencedLabel =>
    cases op with
    | label name => exact ite_renumbered (facts.isReferenced_renumber name) rfl rfl
    | _ => rfl
  | _ => rfl

/-- What two instructions are replaced with is the same under other numbers. -/
theorem replaceTwo?_renumber (facts : Facts) (pattern : Pattern) (x y : Instruction) :
    pattern.replaceTwo? (facts.renumber φ) (x.renumber φ) (y.renumber φ) =
      renumbered φ (pattern.replaceTwo? facts x y) := by
  have hsame := same_renumber hφ
  have hsingle := facts.isSingleUse_renumber hφ
  -- a temporary that a move of its own type takes on
  have hmoved : ∀ temporary source target : Register,
      ((temporary.renumber φ).same (source.renumber φ) && (facts.renumber φ).isSingleUse (temporary.renumber φ) &&
        (temporary.renumber φ).type = (target.renumber φ).type) =
      (temporary.same source && facts.isSingleUse temporary && temporary.type = target.type) := by
    intro _ _ _
    rw [hsame, hsingle]
    rfl
  obtain ⟨x, why⟩ := x
  obtain ⟨y, why'⟩ := y
  cases pattern with
  | selfMove | unreferencedLabel => rfl
  | copyBack =>
    cases x with
    | move a b =>
      cases y with
      | move c d => exact ite_renumbered (congrArg₂ and (hsame a d) (hsame b c)) rfl rfl
      | _ => rfl
    | _ => rfl
  | foldImmediateCopy =>
    cases x with
    | loadImmediate _ temporary =>
      cases y with
      | move source target => exact ite_renumbered (hmoved temporary source target) rfl rfl
      | _ => rfl
    | _ => rfl
  | cancelIncrementDecrement =>
    cases x with
    | step _ a =>
      cases y with
      | step _ b => exact ite_renumbered (congrArg₂ and rfl (hsame a b)) rfl rfl
      | _ => rfl
    | _ => rfl
  | compareWithZero =>
    cases x with
    | loadImmediate value zero =>
      cases y with
      | compare cmp lhs rhs =>
        refine ite_renumbered (congrArg₂ and (congrArg (value.isZero && ·) (hsingle zero))
          (congrArg₂ or (hsame rhs zero) (hsame lhs zero))) ?_ rfl
        dsimp only
        rw [hsame rhs zero, ← apply_ite (Register.renumber φ)]
        generalize (if rhs.same zero then lhs else rhs) = source
        show (isUnsigned? source.type).bind _ = _
        cases isUnsigned? source.type with
        | none => rfl
        | some isUnsigned =>
          show (zeroTest? cmp (rhs.same zero) isUnsigned).map _ = renumbered φ (Option.map _ _)
          cases zeroTest? cmp (rhs.same zero) isUnsigned <;> rfl
      | _ => rfl
    | _ => rfl
  | subtractThenTestZero =>
    cases x with
    | binary operator lhs rhs difference =>
      cases y with
      | testZero source =>
        cases operator with
        | subtract => exact ite_renumbered (congrArg₂ and (hsame difference source) (hsingle difference)) rfl rfl
        | _ => rfl
      | _ => cases operator <;> rfl
    | _ => rfl
  | forwardDefinition =>
    cases y with
    | move source target =>
      show forwardDefinition.replaceTwo? _ ⟨x.mapRegisters _, why⟩
        ⟨.move (source.renumber φ) (target.renumber φ), why'⟩ = _
      simp only [replaceTwo?, x.plainDestination?_mapRegisters, x.mapWrites_mapRegisters]
      cases plainDestination? x with
      | none => rfl
      | some temporary => exact ite_renumbered (hmoved temporary source target) rfl rfl
    | _ => rfl
  | propagateCopy =>
    cases x with
    | move source temporary =>
      have hcopied : (!(source.renumber φ).same (temporary.renumber φ) &&
          (facts.renumber φ).isSingleUse (temporary.renumber φ) && temporary.type = source.type &&
          (y.mapRegisters (Register.renumber φ)).reads.any (·.same (temporary.renumber φ))) =
          (!source.same temporary && facts.isSingleUse temporary && temporary.type = source.type &&
          y.reads.any (·.same temporary)) := by
        rw [hsame, hsingle, Operation.reads_mapRegisters, List.any_map]
        exact congrArg _ (congrArg y.reads.any (funext fun r => hsame r temporary))
      have hreads : (y.mapRegisters (Register.renumber φ)).mapReads
          (fun r => if r.same (temporary.renumber φ) then source.renumber φ else r) =
          (y.mapReads fun r => if r.same temporary then source else r).mapRegisters (Register.renumber φ) := by
        refine y.mapReads_mapRegisters _ fun r => ?_
        rw [hsame]
        exact (apply_ite _ _ _ _).symm
      cases y with
      | step => rfl
      | _ => exact ite_renumbered hcopied (congrArg (some [Instruction.mk · why']) hreads) rfl
    | _ => rfl
  | jumpToNextLabel =>
    cases x with
    | goto target =>
      cases y with
      | label name =>
        show (if target = name then some _ else none) = renumbered φ (if target = name then some _ else none)
        split <;> rfl
      | _ => rfl
    | _ => rfl
  | unreachableAfterJump =>
    have hlabel := y.isLabel_mapRegisters (Register.renumber φ)
    cases x with
    | goto | ret => exact ite_renumbered hlabel rfl rfl
    | _ => rfl

end Pattern

/-! ## Simplification -/

theorem Pattern.simplifyFront?_renumber (facts : Facts) (pattern : Pattern) (is : List Instruction) :
    pattern.simplifyFront? (facts.renumber φ) (is.map (Instruction.renumber φ)) =
      renumbered φ (pattern.simplifyFront? facts is) := by
  match is with
  | [] => rfl
  | [first] => exact replaceOne?_renumber hφ facts pattern first
  | first :: second :: rest =>
    simp only [map_cons, simplifyFront?, replaceOne?_renumber hφ, replaceTwo?_renumber hφ]
    cases pattern.replaceOne? facts first with
    | some => simp [renumbered]
    | none => cases pattern.replaceTwo? facts first second <;> simp [renumbered]

theorem simplifyFront?_renumber (facts : Facts) (is : List Instruction) :
    simplifyFront? (facts.renumber φ) (is.map (Instruction.renumber φ)) =
      (simplifyFront? facts is).map (Prod.map id (List.map (Instruction.renumber φ))) := by
  rw [simplifyFront?, simplifyFront?, map_findSome?]
  refine congrArg (findSome? · Pattern.all) (funext fun pattern => ?_)
  rw [Function.comp_apply, Pattern.simplifyFront?_renumber hφ, Pattern.renumbered, Option.map_map, Option.map_map]
  rfl

theorem simplifyFirst?_renumber (facts : Facts) (is : List Instruction) :
    simplifyFirst? (facts.renumber φ) (is.map (Instruction.renumber φ)) =
      (simplifyFirst? facts is).map (Prod.map id (map (Instruction.renumber φ))) := by
  induction is with
  | nil => rfl
  | cons first rest ih =>
    have hfront := simplifyFront?_renumber hφ facts (first :: rest)
    rw [map_cons] at hfront ⊢
    rw [simplifyFirst?, simplifyFirst?, hfront, ih]
    cases simplifyFront? facts (first :: rest) with
    | some => rfl
    | none => cases simplifyFirst? facts rest <;> rfl

/-- However many steps there are, they are the same ones under other numbers. -/
theorem simplify_renumber (params : List Numeral) (rounds : Nat) (is : List Instruction) :
    simplify (params.map φ) rounds (is.map (Instruction.renumber φ)) =
      (simplify params rounds is).map id (map (Instruction.renumber φ)) := by
  induction rounds generalizing is with
  | zero => rfl
  | succ _ ih =>
    have hstep := simplifyFirst?_renumber hφ ⟨is, params⟩ is
    change step? (params.map φ) (is.map (Instruction.renumber φ)) = (step? params is).map _ at hstep
    rw [simplify, simplify, hstep]
    cases step? params is with
    | none => rfl
    | some result =>
      obtain ⟨_, _⟩ := result
      simp only [Option.map_some, Prod.map_apply, ih]
      rfl

end Peephole

namespace Procedure

theorem peepholeTrace_eq (f : Procedure) : f.peepholeTrace = (f.instructions.forM (·.operation.known "reads")).map
    fun _ => ((simplify f.parameterIds f.instructions.length f.instructions).1,
      { f with instructions := (simplify f.parameterIds f.instructions.length f.instructions).2 }) := by
  unfold peepholeTrace
  cases f.instructions.forM (·.operation.known "reads") <;> rfl

/-- The patterns that apply to a procedure, and the code that they leave, do not depend on the numbers of its
registers. A procedure that is refused is refused for the same reason. -/
theorem peepholeTrace_renumber {φ : Numeral → Numeral} (hφ : Function.Injective φ) (f : Procedure) :
    (f.renumber φ).peepholeTrace = f.peepholeTrace.map fun (applied, g) => (applied, g.renumber φ) := by
  have hknown : (f.instructions.map (Instruction.renumber φ)).forM (·.operation.known "reads") =
      f.instructions.forM (·.operation.known "reads") := by
    induction f.instructions with
    | nil => rfl
    | cons i is ih =>
      rw [List.map_cons, List.forM, List.forM, ih]
      exact congrArg (· >>= _) (i.operation.known_mapRegisters _ _)
  have hparameters : (f.renumber φ).parameterIds = f.parameterIds.map φ := by
    simp [parameterIds, renumber, Register.renumber, Function.comp_def]
  have hlength : (f.renumber φ).instructions.length = f.instructions.length := length_map _
  have hsimplify := simplify_renumber hφ f.parameterIds f.instructions.length f.instructions
  rw [peepholeTrace_eq, peepholeTrace_eq, hparameters, hlength]
  simp only [renumber, hknown, hsimplify]
  cases f.instructions.forM (·.operation.known "reads") <;> rfl

/-- Counts a number up and down again, and returns it by way of two temporaries. -/
def roundabout : Procedure :=
  let u8 := Ty.integer 8 false
  let number : Register := ⟨.natural 1, u8⟩
  let copy : Register := ⟨.natural 2, u8⟩
  let result : Register := ⟨.natural 3, u8⟩
  { symbol := ⟨"M", "roundabout", []⟩
    parameters := [⟨"number", number⟩]
    returnType := u8
    locals := []
    registers := [number, copy, result]
    instructions := [⟨.step .increment number, ""⟩, ⟨.step .decrement number, ""⟩, ⟨.move number copy, ""⟩,
      ⟨.binary .add copy number result, ""⟩, ⟨.ret (some result), ""⟩]
    smcRequested := false
    isTailRecursive := false
    convention := .standard }

/-- Numbers a hundred further on. -/
def shifted : Numeral → Numeral
  | .natural n => .natural (n + 100)
  | numeral => numeral

theorem shifted_injective : Function.Injective shifted := by
  rintro (m | x | _) (n | y | _) h <;> cases h <;> rfl

theorem roundabout_renumber :
    Function.Injective shifted ∧ (roundabout.renumber shifted).peepholeTrace =
      .ok ([.cancelIncrementDecrement, .propagateCopy], { roundabout.renumber shifted with instructions :=
        [⟨.binary .add ⟨.natural 101, .integer 8 false⟩ ⟨.natural 101, .integer 8 false⟩
          ⟨.natural 103, .integer 8 false⟩, ""⟩, ⟨.ret (some ⟨.natural 103, .integer 8 false⟩), ""⟩] }) := by
  refine ⟨shifted_injective, (peepholeTrace_renumber shifted_injective roundabout).trans ?_⟩
  decide +kernel

end Procedure

end Retarget
