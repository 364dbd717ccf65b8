import Retarget.Compile
import Retarget.Proofs.Emit.Session
import Retarget.Proofs.Optimize.Pass

/-!
# Procedures are emitted independently

The emission of a procedure looks at another one only where it calls it, and then only at what a caller has to
know: symbol, parameters, return type and convention. So it is the same in every program with the same
interface, whatever the other procedures do (`Target.report_congr`). The reports of all procedures decide the
result: the errors of those that fail, or a file that has all of them in order (`emit_independent`).
-/
namespace Retarget

open Checked Emit Line List Outcome String

/-- What callers see of a procedure is the same. -/
structure Procedure.SameSignature (f g : Procedure) : Prop extends f.SameFace g where
  convention : g.convention = f.convention

/-- The programs have the same data, and procedures that look the same to their callers. -/
structure Program.SameInterface (p q : Program) : Prop extends p.Corresponds Procedure.SameSignature q where
  module : q.module = p.module

theorem Program.SameInterface.find?_cases {p : Program} (h : p.SameInterface q) (symbol : Symbol) :
    (p.find? symbol = none ∧ q.find? symbol = none) ∨
      ∃ f g, p.find? symbol = some f ∧ q.find? symbol = some g ∧ f.SameSignature g :=
  h.toCorresponds.find?_cases (fun _ _ hfg => hfg.symbol) symbol

/-! ## Instruction selection -/

variable {p q : Program} {name : String}

namespace Z80

variable {homes : Homes} {epilogue : Option String}

theorem patchSlots_congr {f g} (h : f.SameSignature g) {text arguments} :
    patchSlots ⟨q, name, homes, epilogue⟩ g text arguments =
      patchSlots ⟨p, name, homes, epilogue⟩ f text arguments := by
  have hlabel : slotLabel g = slotLabel f := by
    funext parameter
    rw [slotLabel, slotLabel, slotBase, slotBase, h.symbol]
  induction arguments with
  | nil => rfl
  | cons _ _ ih =>
    unfold patchSlots
    rw [hlabel, ih]
    rfl

theorem pushArguments_congr :
    pushArguments ⟨q, name, homes, epilogue⟩ arguments = pushArguments ⟨p, name, homes, epilogue⟩ arguments := by
  induction arguments with
  | nil => rfl
  | cons _ _ ih =>
    unfold pushArguments
    rw [ih]
    rfl

variable (h : p.SameInterface q)
include h

theorem callFunction_congr {symbol arguments destination} :
    callFunction ⟨q, name, homes, epilogue⟩ symbol arguments destination =
      callFunction ⟨p, name, homes, epilogue⟩ symbol arguments destination := by
  unfold callFunction
  rcases h.find?_cases symbol with ⟨hp, hq⟩ | ⟨f, g, hp, hq, hfg⟩
  · simp only [hp, hq]
  · simp only [hp, hq, hfg.symbol, hfg.convention, hfg.parameters, patchSlots_congr (p := p) hfg,
      pushArguments_congr (p := p) (q := q)]
    rfl

theorem select_congr : select ⟨q, name, homes, epilogue⟩ = select ⟨p, name, homes, epilogue⟩ := by
  funext operation
  cases operation with
  | call target =>
    cases target with
    | function => exact callFunction_congr h
    | routine => rfl
  | _ => rfl

theorem procedureCode_congr (f : Procedure) : procedureCode q f = procedureCode p f := by
  unfold procedureCode standardProcedure smcProcedure
  simp only [select_congr h]

end Z80

namespace Mos6502

variable {offsets : Offsets} {epilogue : String}

theorem pushArguments_congr :
    pushArguments ⟨q, name, offsets, epilogue⟩ arguments = pushArguments ⟨p, name, offsets, epilogue⟩ arguments := by
  induction arguments with
  | nil => rfl
  | cons _ _ ih =>
    unfold pushArguments
    rw [ih]
    rfl

variable (h : p.SameInterface q)
include h

theorem callFunction_congr :
    callFunction ⟨q, name, offsets, epilogue⟩ symbol arguments result =
      callFunction ⟨p, name, offsets, epilogue⟩ symbol arguments result := by
  unfold callFunction
  rcases h.find?_cases symbol with ⟨hp, hq⟩ | ⟨f, g, hp, hq, hfg⟩
  · simp only [hp, hq]
  · simp only [hp, hq, hfg.symbol, pushArguments_congr (p := p) (q := q)]

theorem select_congr : select ⟨q, name, offsets, epilogue⟩ = select ⟨p, name, offsets, epilogue⟩ := by
  funext operation
  cases operation with
  | call =>
    show call _ _ _ _ = call _ _ _ _
    unfold call
    simp only [callFunction_congr h]
    rfl
  | _ => rfl

theorem procedureCode_congr (f : Procedure) : procedureCode q f = procedureCode p f := by
  unfold procedureCode
  simp only [select_congr h]

end Mos6502

namespace M68k

variable {slots : Slots} (h : p.SameInterface q)
include h

theorem callLabel_congr : callLabel ⟨q, name, slots⟩ target = callLabel ⟨p, name, slots⟩ target := by
  cases target with
  | routine => rfl
  | function symbol =>
    unfold callLabel
    rcases h.find?_cases symbol with ⟨hp, hq⟩ | ⟨f, g, hp, hq, hfg⟩
    · simp only [hp, hq]
    · simp only [hp, hq, hfg.symbol]

theorem select_congr : select ⟨q, name, slots⟩ = select ⟨p, name, slots⟩ := by
  funext operation
  cases operation with
  | call =>
    show call _ _ _ _ = call _ _ _ _
    unfold call
    rw [callLabel_congr h]
    rfl
  | _ => rfl

theorem procedureCode_congr (f : Procedure) : procedureCode q f = procedureCode p f := by
  unfold procedureCode
  simp only [select_congr h]

end M68k

namespace Llvm

variable {storages : Storages} (h : p.SameInterface q)
include h

theorem callee_congr : callee ⟨q, storages⟩ target = callee ⟨p, storages⟩ target := by
  cases target with
  | routine => rfl
  | function symbol =>
    unfold callee
    rcases h.find?_cases symbol with ⟨hp, hq⟩ | ⟨f, g, hp, hq, hfg⟩
    · simp only [hp, hq]
    · simp only [hp, hq, hfg.symbol, hfg.returnType]

theorem select_congr {next operation} : select ⟨q, storages⟩ next operation = select ⟨p, storages⟩ next operation := by
  cases operation with
  | call =>
    show call _ _ _ _ = call _ _ _ _
    unfold call
    rw [callee_congr h]
    rfl
  | ret register => cases register <;> rfl
  | _ => rfl

theorem selectAll_congr {next instructions} :
    selectAll ⟨q, storages⟩ next instructions = selectAll ⟨p, storages⟩ next instructions := by
  induction instructions with
  | nil => rfl
  | cons i _ ih => rw [selectAll, selectAll, selected, selected, select_congr h, ih]

theorem blocksCode_congr {blocks} : blocksCode ⟨q, storages⟩ blocks = blocksCode ⟨p, storages⟩ blocks := by
  induction blocks with
  | nil => rfl
  | cons _ _ ih => rw [blocksCode, blocksCode, blockCode, blockCode, selectAll_congr h, ih]

theorem procedureCode_congr (f : Procedure) : procedureCode q f = procedureCode p f := by
  unfold procedureCode
  simp only [blocksCode_congr h]
  rfl

end Llvm

namespace C99

variable (h : p.SameInterface q)
include h

/-- Calls are written as they stand; only the types of global variables are looked up. -/
theorem select_congr : select q operation = select p operation := by
  cases operation with
  | addressOf symbol =>
    have haddress : addressText q symbol = addressText p symbol := by
      unfold addressText
      rw [h.globals]
    simp only [select, haddress]
  | ret register => cases register <;> rfl
  | _ => rfl

theorem procedureCode_congr (f : Procedure) : procedureCode q f = procedureCode p f := by
  unfold procedureCode
  simp only [select_congr h]

end C99

/-! ## Reports -/

def Outcome.failures {α : Type} (results : List (Except Diagnostic α)) : List Diagnostic :=
  results.filterMap fun
    | .ok _ => none
    | .error diagnostic => some diagnostic

theorem Outcome.collect_map_ok {α : Type} (values : List α) :
    collect (values.map fun value => (.ok value : Except Diagnostic α)) = .ok values := by
  induction values with
  | nil => rfl
  | cons _ _ ih =>
    rw [map_cons, collect, ih]
    rfl

/-- All results are there, or the errors among them are what is collected. -/
theorem Outcome.collect_cases {α : Type} (results : List (Except Diagnostic α)) :
    (∃ values, results = values.map .ok ∧ collect results = .ok values) ∨
      (failures results ≠ [] ∧ collect results = .error (failures results)) := by
  induction results with
  | nil => exact .inl ⟨[], rfl, rfl⟩
  | cons result _ ih =>
    cases result with
    | ok value =>
      rcases ih with ⟨values, hvalues, hcollect⟩ | ⟨hne, hcollect⟩
      · exact .inl ⟨value :: values, by rw [hvalues]; rfl, by rw [collect, hcollect]; rfl⟩
      · exact .inr ⟨hne, by rw [collect, hcollect]; rfl⟩
    | error =>
      refine .inr ⟨cons_ne_nil _ _, ?_⟩
      rcases ih with ⟨_, hvalues, hcollect⟩ | ⟨-, hcollect⟩
      · rw [collect, hcollect, hvalues]
        simp [failures]
      · rw [collect, hcollect]
        rfl

theorem Checked.mapM_eq_ok_iff {ε α β : Type} {f : α → Except ε β} {as : List α} {bs} :
    as.mapM f = .ok bs ↔ as.map f = bs.map .ok := by
  refine ⟨fun h => map_ok_of_forall₂ (forall₂_of_mapM h), fun h => ?_⟩
  induction as generalizing bs with
  | nil =>
    cases map_eq_nil_iff.mp h.symm
    rfl
  | cons a as ih =>
    obtain ⟨b, _, rfl, hb, hrest⟩ := map_eq_cons_iff.mp h.symm
    rw [mapM_cons, ← hb, ih hrest.symm]
    rfl

namespace Text

theorem exists_join_append_right (separator : String) (before texts : List String) :
    ∃ x, join separator (before ++ texts) = x ++ join separator texts := by
  by_cases htexts : texts = []
  · subst htexts
    exact ⟨join separator before, by rw [append_nil, join, join, String.intercalate_nil, append_empty]⟩
  · by_cases hbefore : before = []
    · subst hbefore
      exact ⟨"", by rw [nil_append, empty_append]⟩
    · exact ⟨_, intercalate_append_of_ne_nil hbefore htexts⟩

theorem exists_join_append_left (separator : String) (texts after : List String) :
    ∃ y, join separator (texts ++ after) = join separator texts ++ y := by
  by_cases htexts : texts = []
  · subst htexts
    exact ⟨join separator after, by rw [nil_append, join, join, String.intercalate_nil, empty_append]⟩
  · by_cases hafter : after = []
    · subst hafter
      exact ⟨"", by rw [append_nil, append_empty]⟩
    · refine ⟨separator ++ join separator after, (intercalate_append_of_ne_nil htexts hafter).trans ?_⟩
      exact append_assoc

end Text

variable {target : Target} {comments : Bool}

namespace Target

def procedureText (target : Target) (p : Program) (comments : Bool) (f : Procedure) : Emit String :=
  match target with
  | .c99 => do
    let code ← Emit.check (C99.procedureCode p f)
    Emit.check (Line.listText id Target.c99.descriptor.commentPrefix comments code)
  | .z80 => do Emit.check (Z80.codeText comments (← Z80.procedureCode p f))
  | .mos6502 => do Emit.check (Mos6502.codeText comments (← Mos6502.procedureCode p f))
  | .m68k => do Emit.check (M68k.codeText comments (← M68k.procedureCode p f))
  | .llvm => do
    let code ← Llvm.procedureCode p f
    Emit.check (Line.listText Llvm.Instruction.text Target.llvm.descriptor.commentPrefix comments code)

/-- What stands in the file of a program before its procedures and behind them. -/
def surroundings (target : Target) (p : Program) (comments : Bool) (externals : List String) :
    Checked (List String × List String) :=
  match target with
  | .c99 => do
    let globals ← p.globals.mapM C99.globalDefinition
    let prototypes ← p.procedures.mapM C99.prototype
    return ([C99.prologue p.module, "// Globals"] ++ globals ++ ["// String literals"]
      ++ p.literals.map C99.literalDefinition ++ ["// Function declarations"] ++ prototypes, C99.mainWrapper p)
  | .z80 => do
    let data ← Z80.codeText comments (← Z80.dataCode p)
    return ([Z80.header p externals], [data])
  | .mos6502 => do
    let data ← Mos6502.codeText comments (← Mos6502.dataCode p)
    return ([← Mos6502.header p externals], [data])
  | .m68k => do
    let data ← M68k.codeText comments (← M68k.dataCode p)
    return ([M68k.header p externals], [data])
  | .llvm => do
    let globals ← p.globals.mapM Llvm.globalText
    let declarations ← externals.mapM Llvm.declaration?
    let wrapper ← match p.procedures.find? Llvm.isMain with
      | some f => do pure [← Llvm.mainWrapper f]
      | none => pure []
    return (Llvm.header p :: p.literals.map Llvm.literalText ++ globals ++ declarations.filterMap id, wrapper)

/-- Every file is its procedures with something around them. -/
theorem emit_eq (target : Target) (p : Program) (comments : Bool) :
    target.emit p comments = do
      match ← each target p.procedures (target.procedureText p comments) with
      | .error errors => return .error errors
      | .ok (texts, externals) =>
        let (before, after) ← target.surroundings p comments externals
        return .ok (Text.join "\n\n" (before ++ texts ++ after) ++ "\n") := by
  cases target with
  | llvm =>
    refine congrArg (_ >>= ·) (funext fun emitted => ?_)
    rcases emitted with _ | ⟨_, _⟩
    · rfl
    · simp only [surroundings, bind_assoc]
      cases p.procedures.find? Llvm.isMain <;> simp only [bind_assoc, pure_bind]
  | _ =>
    refine congrArg (_ >>= ·) (funext fun emitted => ?_)
    rcases emitted with _ | ⟨_, _⟩
    · rfl
    · simp only [surroundings, bind_assoc, pure_bind, cons_append, nil_append]

/-- The report on one procedure: its text and the names that it needs from outside, or why it was refused. -/
def report (target : Target) (p : Program) (comments : Bool) (f : Procedure) :
    Checked (Except Diagnostic (String × List String)) :=
  Emit.report target f (target.procedureText p comments f)

theorem report_congr (h : p.SameInterface q) (f : Procedure) :
    target.report q comments f = target.report p comments f := by
  have htext : target.procedureText q comments f = target.procedureText p comments f := by
    cases target with
    | c99 => simp only [procedureText, C99.procedureCode_congr h]
    | z80 => simp only [procedureText, Z80.procedureCode_congr h]
    | mos6502 => simp only [procedureText, Mos6502.procedureCode_congr h]
    | m68k => simp only [procedureText, M68k.procedureCode_congr h]
    | llvm => simp only [procedureText, Llvm.procedureCode_congr h]
  rw [report, report, htext]

end Target

namespace Program

variable {errors : List Diagnostic} {output : String}

def reports (p : Program) (target : Target) (comments : Bool) :
    List (Checked (Except Diagnostic (String × List String))) :=
  p.procedures.map (target.report p comments)

/-- What the reports decide, if none of them is a fault. -/
theorem each_eq_of_reports {reported : List (Except Diagnostic (String × List String))}
    (h : p.reports target comments = reported.map .ok) :
    each target p.procedures (target.procedureText p comments) =
      .ok ((collect reported).map fun emitted =>
        (emitted.map Prod.fst, Text.sortDistinct (emitted.flatMap Prod.snd))) := by
  show p.procedures.mapM (target.report p comments) >>= _ = _
  rw [mapM_eq_ok_iff.mpr h]
  rfl

theorem reports_of_each {outcome : Outcome (List String × List String)}
    (h : each target p.procedures (target.procedureText p comments) = .ok outcome) :
    ∃ reported, p.reports target comments = reported.map .ok ∧
      outcome = (collect reported).map fun emitted =>
        (emitted.map Prod.fst, Text.sortDistinct (emitted.flatMap Prod.snd)) := by
  obtain ⟨reported, hreported, h⟩ := bind_eq_ok.mp h
  cases h
  exact ⟨reported, mapM_eq_ok_iff.mp hreported, rfl⟩

/-- Errors are returned exactly if procedures fail, and are theirs. -/
theorem emit_eq_error_iff :
    target.emit p comments = .ok (.error errors) ↔
      ∃ reported, p.reports target comments = reported.map .ok ∧ errors = Outcome.failures reported ∧ errors ≠ [] := by
  rw [Target.emit_eq]
  constructor
  · intro h
    obtain ⟨_, heach, h⟩ := bind_eq_ok.mp h
    obtain ⟨reported, hreported, rfl⟩ := reports_of_each heach
    rcases collect_cases reported with ⟨_, -, hcollect⟩ | ⟨hne, hcollect⟩
    · rw [hcollect] at h
      obtain ⟨_, -, h⟩ := bind_eq_ok.mp h
      cases h
    · rw [hcollect] at h
      cases h
      exact ⟨reported, hreported, rfl, hne⟩
  · rintro ⟨reported, hreported, rfl, hne⟩
    rcases collect_cases reported with ⟨_, rfl, -⟩ | ⟨-, hcollect⟩
    · simp [failures] at hne
    · rw [each_eq_of_reports hreported, hcollect]
      rfl

theorem texts_of_emit (h : target.emit p comments = .ok (.ok output)) :
    ∃ emitted : List (String × List String), p.reports target comments = emitted.map (fun e => .ok (.ok e)) ∧
      ∃ before after, output = before ++ Text.join "\n\n" (emitted.map Prod.fst) ++ after := by
  rw [Target.emit_eq] at h
  obtain ⟨_, heach, h⟩ := bind_eq_ok.mp h
  obtain ⟨reported, hreported, rfl⟩ := reports_of_each heach
  rcases collect_cases reported with ⟨emitted, rfl, hcollect⟩ | ⟨-, hcollect⟩
  · rw [hcollect] at h
    obtain ⟨⟨before, after⟩, -, h⟩ := bind_eq_ok.mp h
    cases h
    rw [List.map_map] at hreported
    obtain ⟨x, hx⟩ := Text.exists_join_append_right "\n\n" before (emitted.map Prod.fst)
    obtain ⟨y, hy⟩ := Text.exists_join_append_left "\n\n" (before ++ emitted.map Prod.fst) after
    exact ⟨emitted, hreported, x, y ++ "\n", by rw [hy, hx, String.append_assoc]⟩
  · rw [hcollect] at h
    cases h

end Program

section
variable {ε α β : Type}

theorem Checked.exists_bind {f : α → Except ε β} : (∃ y, x >>= f = .ok y) ↔ ∃ a, x = .ok a ∧ ∃ y, f a = .ok y := by
  simp only [bind_eq_ok]
  constructor
  · rintro ⟨y, a, ha, hy⟩
    exact ⟨a, ha, y, hy⟩
  · rintro ⟨a, ha, y, hy⟩
    exact ⟨y, a, ha, hy⟩

theorem Checked.exists_pure : ∃ y, (pure a : Except ε α) = .ok y := ⟨a, rfl⟩

theorem Checked.exists_mapM_iff {f : α → Except ε β} {as : List α} :
    (∃ bs, as.mapM f = .ok bs) ↔ ∀ a ∈ as, ∃ b, f a = .ok b := by
  refine ⟨fun ⟨bs, h⟩ a ha => ?_, exists_mapM⟩
  obtain ⟨b, -, hb⟩ := exists_partner (forall₂_of_mapM h) ha
  exact ⟨b, hb⟩

end

theorem Line.exists_listText {ι : Type} {write : ι → String} {sign comments} {lines : List (Line ι)} :
    (∃ text, listText write sign comments lines = .ok text) ↔
      ∀ line ∈ lines, ∃ text, line.text write sign comments = .ok text := by
  simp only [listText, exists_bind, exists_pure, and_true, exists_mapM_iff]

/-- Whether a function has a head does not depend on the names of its parameters. -/
theorem C99.exists_signature {name : Parameter → String} :
    (∃ head, signature f name = .ok head) ↔
      (∀ q ∈ f.parameters, ∃ text, typeText q.register.type = .ok text) ∧
      (∃ text, typeText f.returnType = .ok text) ∧ ∃ symbol, f.symbol.text = .ok symbol := by
  simp only [signature, exists_bind, exists_pure, and_true, exists_and_right, exists_mapM_iff]

theorem C99.exists_prototype {p f code} (h : procedureCode p f = .ok code) : ∃ text, prototype f = .ok text := by
  obtain ⟨_, -, h⟩ := bind_eq_ok.mp h
  obtain ⟨_, -, h⟩ := bind_eq_ok.mp h
  obtain ⟨head, hhead, -⟩ := bind_eq_ok.mp h
  simp only [prototype, exists_bind, exists_pure, and_true]
  exact exists_signature.mpr (exists_signature.mp ⟨head, hhead⟩)

theorem Mos6502.exists_symbol {p f s s' code} (h : Gives (procedureCode p f) s code s') :
    ∃ name, f.symbol.text = .ok name := by
  obtain ⟨name, t, hname, -⟩ := gives_bind.mp h
  exact ⟨name, (gives_check.mp hname).1⟩

theorem Llvm.exists_mainWrapper {p f s s' code} (h : Gives (procedureCode p f) s code s') :
    ∃ text, mainWrapper f = .ok text := by
  simp only [procedureCode, gives_bind, gives_check] at h
  obtain ⟨_, _, -, _, _, -, _, _, -, _, _, -, _, _, -, _, _, ⟨hhead, -⟩, -⟩ := h
  obtain ⟨_, htype, h⟩ := bind_eq_ok.mp hhead
  obtain ⟨_, hsym, -⟩ := bind_eq_ok.mp h
  rw [mainWrapper, htype, hsym]
  exact ⟨_, rfl⟩

theorem Llvm.exists_declaration? (name : String) : ∃ declaration, declaration? name = .ok declaration := by
  unfold declaration?
  generalize Routine.ofName name = routine
  cases routine <;> exact ⟨_, rfl⟩

/-- The table of slots has no lines but labels and directives. -/
theorem Z80.exists_text_of_mem_patchTable (h : line ∈ patchTable p) (comments : Bool) :
    ∃ text, line.text Instruction.text commentSign comments = .ok text := by
  have hknown : ∀ node, line ≠ .unknown node := by
    rintro _ rfl
    simp only [patchTable] at h
    split at h
    · cases h
    · simp only [mem_append, mem_singleton, mem_flatMap, reduceCtorEq, false_or, or_false] at h
      obtain ⟨f, -, h⟩ := h
      unfold patchEntries at h
      split at h
      · simp [code, plain] at h
      · cases h
  cases line with
  | unknown node => exact absurd rfl (hknown node)
  | _ => exact ⟨_, rfl⟩

namespace Program

/-- If all procedures are emitted, what stands around them can be written whenever it can be for the data alone. -/
theorem exists_surroundings (h : ∀ f ∈ p.procedures, ∃ e, target.report p comments f = .ok (.ok e))
    {fewer : List String} (hdata : ∃ parts, target.surroundings { p with procedures := [] } comments fewer = .ok parts)
    (externals : List String) : ∃ parts, target.surroundings p comments externals = .ok parts := by
  have hgives : ∀ f ∈ p.procedures, ∃ text s, Gives (target.procedureText p comments f) ⟨0, []⟩ text s := by
    intro f hf
    obtain ⟨⟨text, _⟩, he⟩ := h f hf
    obtain ⟨s, hs⟩ := gives_of_runFresh (runFresh_of_report he)
    exact ⟨text, s, hs⟩
  cases target with
  | c99 =>
    simp only [Target.surroundings, exists_bind, exists_pure, and_true, exists_and_right,
      exists_mapM_iff] at hdata ⊢
    refine ⟨hdata.1, fun f hf => ?_⟩
    obtain ⟨_, s, hf⟩ := hgives f hf
    obtain ⟨_, t, hcode, -⟩ := gives_bind.mp hf
    exact C99.exists_prototype (gives_check.mp hcode).1
  | z80 =>
    simp only [Target.surroundings, exists_bind, exists_pure, and_true] at hdata ⊢
    obtain ⟨_, hcode, hdata⟩ := hdata
    obtain ⟨globals, hglobals, hcode⟩ := bind_eq_ok.mp hcode
    cases hcode
    refine ⟨_, bind_eq_ok.mpr ⟨globals, hglobals, rfl⟩, exists_listText.mpr fun line hline => ?_⟩
    rw [List.append_assoc] at hline
    rcases mem_append.mp hline with hline | hline
    · exact Z80.exists_text_of_mem_patchTable hline comments
    · exact exists_listText.mp hdata line hline
  | mos6502 =>
    simp only [Target.surroundings, Mos6502.header, exists_bind, exists_pure, and_true,
      exists_mapM_iff] at hdata ⊢
    obtain ⟨code, hcode, ⟨data, hdata, -⟩⟩ := hdata
    refine ⟨code, hcode, data, hdata, fun f hf => ?_⟩
    obtain ⟨_, s, hf⟩ := hgives f hf
    obtain ⟨_, t, hcode, -⟩ := gives_bind.mp hf
    exact Mos6502.exists_symbol hcode
  | m68k =>
    simp only [Target.surroundings, exists_bind, exists_pure, and_true] at hdata ⊢
    exact hdata
  | llvm =>
    simp only [Target.surroundings, exists_bind] at hdata ⊢
    obtain ⟨globals, hglobals, -⟩ := hdata
    obtain ⟨decls, hdecls⟩ := exists_mapM fun name (_ : name ∈ externals) => Llvm.exists_declaration? name
    refine ⟨globals, hglobals, decls, hdecls, ?_⟩
    cases hmain : p.procedures.find? Llvm.isMain with
    | none => exact ⟨_, rfl⟩
    | some f =>
      obtain ⟨_, s, hf⟩ := hgives f (mem_of_find?_eq_some hmain)
      obtain ⟨_, t, hcode, -⟩ := gives_bind.mp hf
      obtain ⟨wrapper, hwrapper⟩ := Llvm.exists_mainWrapper hcode
      exact exists_bind.mpr ⟨wrapper, hwrapper, _, rfl⟩

theorem exists_output {emitted : List (String × List String)}
    (h : p.reports target comments = emitted.map fun e => .ok (.ok e))
    (hdata : target.emit { p with procedures := [] } comments = .ok (.ok file)) :
    ∃ output, target.emit p comments = .ok (.ok output) := by
  have hall : ∀ f ∈ p.procedures, ∃ e, target.report p comments f = .ok (.ok e) := by
    intro f hf
    have hmem : target.report p comments f ∈ p.reports target comments := mem_map_of_mem hf
    rw [h] at hmem
    obtain ⟨e, -, he⟩ := mem_map.mp hmem
    exact ⟨e, he.symm⟩
  have hnone : reports { p with procedures := [] } target comments = [].map .ok := rfl
  rw [Target.emit_eq, each_eq_of_reports hnone] at hdata
  obtain ⟨_, houtcome, hdata⟩ := bind_eq_ok.mp hdata
  cases houtcome
  obtain ⟨parts, hparts, -⟩ := bind_eq_ok.mp hdata
  obtain ⟨⟨before, after⟩, hsurroundings⟩ := exists_surroundings hall ⟨parts, hparts⟩
    (Text.sortDistinct (emitted.flatMap Prod.snd))
  have hreported : p.reports target comments = (emitted.map .ok).map .ok := by
    rw [h, List.map_map]
    rfl
  rw [Target.emit_eq, each_eq_of_reports hreported, collect_map_ok]
  exact ⟨_, bind_eq_ok.mpr ⟨_, rfl, bind_eq_ok.mpr ⟨(before, after), hsurroundings, rfl⟩⟩⟩

/-- Procedures are emitted independently: the report on one stays the same whatever the others are made of. Errors
are returned exactly if procedures fail, one for each that does and in their order. Otherwise there is a file, if
there is one for the data alone, and it has the texts of all procedures in order. -/
theorem emit_independent (p : Program) (target : Target) (comments : Bool) :
    (∀ q, p.SameInterface q → ∀ i : Nat, q.procedures[i]? = p.procedures[i]? →
      (q.reports target comments)[i]? = (p.reports target comments)[i]?) ∧
    (p.checkCapabilities target = .ok [] →
      (∀ errors, p.emit target comments = .ok (.error errors) ↔
        ∃ reported, p.reports target comments = reported.map .ok ∧ errors = Outcome.failures reported ∧
          errors ≠ []) ∧
      (∀ output, p.emit target comments = .ok (.ok output) →
        ∃ emitted : List (String × List String), p.reports target comments = emitted.map (fun e => .ok (.ok e)) ∧
          ∃ before after, output = before ++ Text.join "\n\n" (emitted.map Prod.fst) ++ after) ∧
      ∀ emitted : List (String × List String), p.reports target comments = emitted.map (fun e => .ok (.ok e)) →
        (∃ file, target.emit { p with procedures := [] } comments = .ok (.ok file)) →
        ∃ output, p.emit target comments = .ok (.ok output)) := by
  refine ⟨fun q h i hi => ?_, fun hcapable => ?_⟩
  · rw [reports, reports, getElem?_map, getElem?_map, hi]
    exact congrArg (Option.map · _) (funext (Target.report_congr h))
  · have hemit : p.emit target comments = target.emit p comments := by
      rw [emit, hcapable]
      rfl
    rw [hemit]
    exact ⟨fun errors => emit_eq_error_iff, fun output => texts_of_emit,
      fun emitted hemitted ⟨file, hdata⟩ => exists_output hemitted hdata⟩

/-- A parameter that no slot in the code can hold. -/
def wide : Procedure :=
  ⟨⟨"M", "wide", []⟩, [⟨"x", ⟨.natural 1, .u32⟩⟩], .void, [], [⟨.natural 1, .u32⟩], [⟨.ret none, ""⟩], false, false,
    .smc⟩

def callsWide : Procedure :=
  ⟨⟨"M", "main", []⟩, [⟨"x", ⟨.natural 1, .u32⟩⟩], .void, [], [⟨.natural 1, .u32⟩],
    [⟨.call (.function ⟨"M", "wide", []⟩) [⟨.natural 1, .u32⟩] none, ""⟩, ⟨.ret none, ""⟩], false, false, .standard⟩

def returns : Procedure :=
  ⟨⟨"M", "returns", []⟩, [], .void, [], [], [⟨.ret none, "Done"⟩], false, false, .standard⟩

/-- The procedure in the middle is emitted, those around it are refused; and what calls the last is refused for
its parameters, whatever it does. -/
theorem wide_emit_independent :
    let p : Program := ⟨"M", [callsWide, returns, wide], [], []⟩
    let q : Program := ⟨"M", [callsWide, { returns with instructions := [] }, { wide with instructions := [] }], [], []⟩
    p.checkCapabilities .z80 = .ok [] ∧ (q.reports .z80 true)[0]? = (p.reports .z80 true)[0]? ∧
      p.emit .z80 true = .ok (.error
        [.emitterInternal "M_main" "z80-smc" "can't patch x of M_wide: SMC slots hold at most 16 bits",
          .emitterInternal "M_wide" "z80-smc" "parameter x is u32; SMC slots hold at most 16 bits"]) := by
  intro p q
  have hsame : p.SameInterface q :=
    { globals := rfl
      literals := rfl
      procedures := .cons ⟨⟨rfl, rfl, rfl⟩, rfl⟩ (.cons ⟨⟨rfl, rfl, rfl⟩, rfl⟩ (.cons ⟨⟨rfl, rfl, rfl⟩, rfl⟩ .nil))
      module := rfl }
  have hcapable : p.checkCapabilities .z80 = .ok [] := by decide +kernel
  obtain ⟨hindependent, hemits⟩ := emit_independent p .z80 true
  refine ⟨hcapable, hindependent q hsame 0 rfl, ((hemits hcapable).1 _).mpr ⟨
    [.error (.emitterInternal "M_main" "z80-smc" "can't patch x of M_wide: SMC slots hold at most 16 bits"),
      .ok ("; standard convention\nM_returns:\n    PUSH IX ; Set up frame\n    LD IX,0\n    ADD IX,SP\n" ++
        "    JP M_returns_epilogue ; Done\nM_returns_epilogue:\n    LD SP,IX\n    POP IX\n    RET", []),
      .error (.emitterInternal "M_wide" "z80-smc" "parameter x is u32; SMC slots hold at most 16 bits")],
    ?_, rfl, cons_ne_nil _ _⟩⟩
  decide +kernel

end Program

end Retarget
