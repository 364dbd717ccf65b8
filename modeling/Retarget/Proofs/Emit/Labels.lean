import Retarget.Compile
import Retarget.Proofs.Emit.M68k.Labels
import Retarget.Proofs.Emit.Mos6502.Labels
import Retarget.Proofs.Emit.Z80.Labels
import Retarget.Proofs.Lower.Safety

/-!
# Labels of assembly files

In what a module is compiled to, no procedure defines a label twice. Two procedures define the same label only if the
symbol of one is that of the other, or goes on behind it with an underscore; names such as `f` and `f_epilogue` do
that. So all labels are different if symbols do not start like this (`labels_nodup_of_compile`).
-/
namespace Retarget

open Lower Checked Emit List

/-! ## Names of compiled procedures -/

theorem Lower.LowersParameters.names {ctx params s t result} (h : LowersParameters ctx params s result t) :
    result.map (·.name) = params.map (·.name) := by
  induction h with
  | nil => rfl
  | cons _ _ _ ih => rw [map_cons, map_cons, ih]

namespace Procedure

variable {f g : Procedure}

theorem hasDistinctNames_of_lowered {module final} {p : Program} (hp : p.Assembled module final)
    (hparams : ∀ d ∈ module.functions, (d.parameters.map (·.name)).Nodup) (hf : f ∈ p.procedures) :
    f.HasDistinctNames := by
  obtain ⟨d, hd, _, _, name, code, _, t, hlower, -, -⟩ := hp.lowered hf
  obtain ⟨-, hlays⟩ := hlower.lays
  refine ⟨(hp.regular hf).labels, fun name hname => ?_, ?_, (hp.regular hf).numbered⟩
  · have hlabel : name ∈ code.labels := by
      rw [CodeTree.labels, ← hlower.operations_eq, filterMap_map]
      exact hname
    obtain ⟨kind, hkind, n, hn, -⟩ := hlays.labelled.numbered name hlabel
    exact Or.inl ⟨kind, hkind, n, hn⟩
  · cases hlower with
    | function lowerParameters =>
      show (map _ _).Nodup
      rw [lowerParameters.names]
      exact hparams d hd

theorem HasDistinctNames.optimizes (hf : f.HasDistinctNames) (hregular : f.Regular) (h : f.Optimizes passes g) :
    g.HasDistinctNames where
  labels := (h.regular hregular).labels
  names name hname := by
    obtain ⟨i, hi, hlabel⟩ := mem_filterMap.mp hname
    rcases h.relabels hregular i hi name (Operation.eq_label hlabel) with hloop | ⟨j, hj, hlabel⟩
    · exact Or.inr hloop
    · exact hf.names name (mem_filterMap.mpr ⟨j, hj, by rw [hlabel]; rfl⟩)
  parameters := by
    rw [h.parameters]
    exact hf.parameters
  registers := (h.regular hregular).numbered

end Procedure

/-! ## Files -/

/-- What a procedure has in an assembly file: the text of its symbol, the labels that it defines and its text. -/
structure Part where
  symbol : String
  labels : List String
  text : String
deriving DecidableEq, Repr

/-- One symbol is the other, or goes on behind it with an underscore. -/
def Part.Clashes (a b : Part) : Prop := Mark.Continues a.symbol b.symbol ∨ Mark.Continues b.symbol a.symbol

instance (a b : Part) : Decidable (a.Clashes b) := inferInstanceAs (Decidable (_ ∨ _))

/-- The part has the symbol of the procedure, and labels and text of the code that it is emitted as. -/
def Part.IsOf {ι : Type} (part : Part) (p : Procedure) (equated? : String → Option String)
    (write : List (Line ι) → Checked String) (emission : Emit (List (Line ι))) : Prop :=
  ∃ code s, p.symbol.text = .ok part.symbol ∧ Emit.Gives emission ⟨0, []⟩ code s ∧
    part.labels = Line.labels equated? code ∧ write code = .ok part.text

theorem Part.exists_isOf {ι : Type} {p} (equated? : String → Option String) {write : List (Line ι) → Checked String}
    {emission : String → Emit (List (Line ι))} {text s}
    (h : Gives ((check p.symbol.text >>= emission) >>= fun code => check (write code)) ⟨0, []⟩ text s) :
    ∃ part : Part, part.text = text ∧ part.IsOf p equated? write (check p.symbol.text >>= emission) := by
  obtain ⟨code, t, hcode, htext⟩ := gives_bind.mp h
  obtain ⟨symbol, u, hsym, -⟩ := gives_bind.mp hcode
  exact ⟨⟨symbol, Line.labels equated? code, text⟩, rfl, code, t, (gives_check.mp hsym).1, hcode, rfl,
    (gives_check.mp htext).1⟩

namespace Target

/-- The procedure has this part in the assembly file of the program. -/
def Writes (target : Target) (program : Program) (comments : Bool) (p : Procedure) (part : Part) : Prop :=
  match target with
  | .z80 => part.IsOf p Z80.equated? (Z80.codeText comments) (Z80.procedureCode program p)
  | .mos6502 => part.IsOf p (fun _ => none) (Mos6502.codeText comments) (Mos6502.procedureCode program p)
  | .m68k => part.IsOf p (fun _ => none) (M68k.codeText comments) (M68k.procedureCode program p)
  | .c99 | .llvm => False

/-- The file is a header, the parts of the procedures and the data. -/
structure IsFile (target : Target) (program : Program) (comments : Bool) (parts : List Part) (output : String) :
    Prop where
  writes : List.Forall₂ (target.Writes program comments) program.procedures parts
  output_eq : ∃ header data, output = Text.join "\n\n" (header :: parts.map (·.text) ++ [data]) ++ "\n"

variable {target : Target} {program : Program} {comments : Bool} {p : Procedure} {part : Part} {output : String}

theorem Writes.areLabels (h : target.Writes program comments p part) (hp : p.HasDistinctNames) :
    Mark.AreLabels part.symbol part.labels := by
  cases target with
  | c99 | llvm => exact h.elim
  | z80 | mos6502 | m68k =>
    obtain ⟨_, s, hsym, hcode, hlabels, -⟩ := h
    rw [hlabels]
    first
    | exact Z80.areLabels_procedureCode hp hsym hcode
    | exact Mos6502.areLabels_procedureCode hp hsym hcode _
    | exact M68k.areLabels_procedureCode hp hsym hcode

theorem Writes.symbol_eq (h : target.Writes program comments p part) : p.symbol.text = .ok part.symbol := by
  cases target <;> first | exact h.elim | exact h.choose_spec.choose_spec.1

theorem IsFile.symbols (h : target.IsFile program comments parts output) :
    program.procedures.map (·.symbol.text) = (parts.map (·.symbol)).map .ok :=
  map_ok_of_forall₂ (forall₂_map_right_iff.mpr (h.writes.imp fun _ _ hwrites => hwrites.symbol_eq))

theorem IsFile.labels_mos6502 (h : mos6502.IsFile program comments parts output) :
    program.procedures.map (fun p => Line.labels (fun _ => none) (Mos6502.procedureCode program p).written) =
      parts.map (·.labels) := by
  rw [← forall₂_eq_eq_eq, forall₂_map_left_iff, forall₂_map_right_iff]
  refine h.writes.imp fun p part ⟨code, s, _, hcode, hlabels, _⟩ => ?_
  rw [hcode.written_eq, hlabels]

theorem exists_parts (target : Target) (program : Program) (comments : Bool)
    (h : Forall₂ (fun p text => ∃ part : Part, part.text = text ∧ target.Writes program comments p part)
      procedures texts) :
    ∃ parts : List Part, parts.map (·.text) = texts ∧
      Forall₂ (target.Writes program comments) procedures parts := by
  induction h with
  | nil => exact ⟨[], rfl, .nil⟩
  | cons hfirst _ ih =>
    obtain ⟨part, rfl, hpart⟩ := hfirst
    obtain ⟨parts, rfl, hparts⟩ := ih
    exact ⟨part :: parts, rfl, .cons hpart hparts⟩

theorem isFile_of_emit (htarget : target ∈ [z80, mos6502, m68k]) (h : target.emit program comments = .ok (.ok output)) :
    ∃ parts, target.IsFile program comments parts output := by
  have htexts : ∃ texts, Forall₂ (fun p text => ∃ part : Part, part.text = text ∧ target.Writes program comments p part)
      program.procedures texts ∧ ∃ header data, output = Text.join "\n\n" (header :: texts ++ [data]) ++ "\n" := by
    simp only [mem_cons, not_mem_nil, or_false] at htarget
    rcases htarget with rfl | rfl | rfl
    all_goals
      obtain ⟨_, hemitted, h⟩ := bind_eq_ok.mp h
      split at h
      · cases h
      obtain ⟨_, -, h⟩ := bind_eq_ok.mp h
      obtain ⟨data, -, h⟩ := bind_eq_ok.mp h
    on_goal 2 => obtain ⟨_, -, h⟩ := bind_eq_ok.mp h
    all_goals
      cases h
      exact ⟨_, (forall₂_of_each hemitted).imp fun _ _ h => Part.exists_isOf _ h.choose_spec, _, data, rfl⟩
  obtain ⟨_, htexts, houtput⟩ := htexts
  obtain ⟨parts, rfl, hparts⟩ := exists_parts target program comments htexts
  exact ⟨parts, hparts, houtput⟩

end Target

namespace Source.Module

variable {module : Module} {options : Options} {compiled : Compiled}

theorem compile_cases (h : module.compile options = .ok (.ok compiled)) :
    ∃ lowered, module.lower options.limits = .ok (.ok lowered) ∧
      lowered.optimize options.passes options.smc compiled.target.supportsSmc = .ok (.ok compiled.program) ∧
      compiled.target.emit compiled.program options.comments = .ok (.ok compiled.output) := by
  unfold compile at h
  obtain ⟨outcome, hlowered, h⟩ := bind_eq_ok.mp h
  cases outcome with
  | error => cases h
  | ok lowered =>
    obtain ⟨_, -, h⟩ := bind_eq_ok.mp h
    obtain ⟨outcome, hoptimized, h⟩ := bind_eq_ok.mp h
    cases outcome with
    | error => cases h
    | ok =>
      obtain ⟨outcome, hemitted, h⟩ := bind_eq_ok.mp h
      cases outcome with
      | error => cases h
      | ok =>
        cases h
        obtain ⟨_, -, hemitted⟩ := bind_eq_ok.mp hemitted
        refine ⟨lowered, hlowered, hoptimized, ?_⟩
        split at hemitted
        · exact hemitted
        · cases hemitted

theorem hasDistinctNames_of_compile (h : module.compile options = .ok (.ok compiled))
    (hparams : ∀ d ∈ module.functions, (d.parameters.map (·.name)).Nodup) (hp : p ∈ compiled.program.procedures) :
    p.HasDistinctNames := by
  obtain ⟨_, hlowered, hoptimized, -⟩ := compile_cases h
  obtain ⟨_, hassembled⟩ := assembled_of_lower hlowered
  obtain ⟨f, hf, hoptimizes⟩ := Program.exists_optimizes hoptimized hp
  exact (Procedure.hasDistinctNames_of_lowered hassembled hparams hf).optimizes (hassembled.regular hf) hoptimizes

/-- No procedure of an assembly file defines a label twice, and only procedures whose symbols clash define the same
label. So the labels of all procedures are different if no symbols clash. -/
theorem labels_nodup_of_compile (h : module.compile options = .ok (.ok compiled))
    (htarget : compiled.target ∈ [Target.z80, .mos6502, .m68k])
    (hparameters : ∀ d ∈ module.functions, (d.parameters.map (·.name)).Nodup) :
    ∃ parts, compiled.target.IsFile compiled.program options.comments parts compiled.output ∧
      (∀ part ∈ parts, part.labels.Nodup) ∧
      (∀ a ∈ parts, ∀ b ∈ parts, ∀ label ∈ a.labels, label ∈ b.labels → a.Clashes b) ∧
      (parts.Pairwise (fun a b => ¬ a.Clashes b) → (parts.flatMap (·.labels)).Nodup) := by
  obtain ⟨_, _, _, hemitted⟩ := compile_cases h
  obtain ⟨parts, hfile⟩ := Target.isFile_of_emit htarget hemitted
  have hlabels : ∀ part ∈ parts, Mark.AreLabels part.symbol part.labels := by
    intro _ hpart
    obtain ⟨p, hp, hwrites⟩ := exists_origin hfile.writes hpart
    exact hwrites.areLabels (hasDistinctNames_of_compile h hparameters hp)
  have hclashes : ∀ a ∈ parts, ∀ b ∈ parts, ∀ label ∈ a.labels, label ∈ b.labels → a.Clashes b :=
    fun a ha b hb label hlabel hlabel' =>
      ((hlabels a ha).continues label hlabel).or_of_common ((hlabels b hb).continues label hlabel')
  refine ⟨parts, hfile, fun part hpart => (hlabels part hpart).nodup, hclashes, fun hapart => ?_⟩
  refine nodup_flatMap.mpr ⟨fun part hpart => (hlabels part hpart).nodup, ?_⟩
  exact hapart.imp_of_mem fun ha hb hnot label hlabel hlabel' => hnot (hclashes _ ha _ hb label hlabel hlabel')

/-- A function that finds its arguments in its own code and branches on a comparison, and one that calls it. -/
def least : Source.Module where
  name := "M"
  functions := [
    ⟨"least", [], [⟨"a", .u8⟩, ⟨"b", .u8⟩], .u8, [
      .conditional (.comparison .lt (.identifier "a" .u8 none) (.identifier "b" .u8 none) none)
        [.ret (some (.identifier "a" .u8 none)) none] none none,
      .ret (some (.identifier "b" .u8 none)) none], true, none⟩,
    ⟨"choose", [], [⟨"a", .u8⟩], .u8, [
      .ret (some (.call (.function "least") [.identifier "a" .u8 none, .number 7 .u8 none] .u8 none)) none],
      false, none⟩]
  globals := []

def settings (target : String) : Options :=
  ⟨.string target, ⟨true, true⟩, .annotated, ⟨⟨8, "8"⟩, ⟨64, "64"⟩⟩, true⟩

theorem least_labels_nodup : ∃ compiled parts,
    least.compile (settings "z80-smc") = .ok (.ok compiled) ∧ compiled.target ∈ [Target.z80, .mos6502, .m68k] ∧
    (∀ d ∈ least.functions, (d.parameters.map (·.name)).Nodup) ∧
    compiled.target.IsFile compiled.program true parts compiled.output ∧
    parts.map (·.symbol) = ["M_least", "M_choose"] ∧ (parts.flatMap (·.labels)).Nodup := by
  have hcompiles : ((least.compile (settings "z80-smc")).toOption.bind (·.toOption)).map (fun compiled =>
      (compiled.target, compiled.program.procedures.map (·.symbol.text))) =
      some (.z80, [.ok "M_least", .ok "M_choose"]) := by
    decide +kernel
  have hparameters : ∀ d ∈ least.functions, (d.parameters.map (·.name)).Nodup := by decide
  obtain ⟨compiled, hcompiled, hcompiles⟩ := Checked.exists_of_map hcompiles
  obtain ⟨htarget, hsymbols⟩ := Prod.mk.inj hcompiles
  have hassembly : compiled.target ∈ [Target.z80, .mos6502, .m68k] := by
    rw [show compiled.target = .z80 from htarget]
    decide
  obtain ⟨parts, hfile, -, -, hnodup⟩ := labels_nodup_of_compile hcompiled hassembly hparameters
  have hparts : parts.map (·.symbol) = ["M_least", "M_choose"] :=
    (map_injective_iff.mpr fun _ _ => Except.ok.inj) (hfile.symbols.symm.trans hsymbols)
  refine ⟨compiled, parts, hcompiled, hassembly, hparameters, hfile, hparts, hnodup (pairwise_map.mp
    (?_ : (parts.map (·.symbol)).Pairwise fun a b => ¬ (Mark.Continues a b ∨ Mark.Continues b a)))⟩
  rw [hparts]
  decide +kernel

/-- Two functions, one with the name of the other's exit. -/
def exits : Source.Module where
  name := "M"
  functions := [⟨"f", [], [], .void, [], false, none⟩, ⟨"f_epilogue", [], [], .void, [], false, none⟩]
  globals := []

/-- Functions of different names may have a label in common: here the exit of one is the entry of the other. -/
theorem exits_share_label : (exits.functions.map (·.name)).Nodup ∧
    (∀ d ∈ exits.functions, (d.parameters.map (·.name)).Nodup) ∧
    ∃ compiled parts, exits.compile (settings "mos6502") = .ok (.ok compiled) ∧
      compiled.target.IsFile compiled.program true parts compiled.output ∧
      parts.map (·.labels) = [["M_f", "M_f_epilogue"], ["M_f_epilogue", "M_f_epilogue_epilogue"]] ∧
      ¬ (parts.flatMap (·.labels)).Nodup := by
  have hcompiles : ((exits.compile (settings "mos6502")).toOption.bind (·.toOption)).map (fun compiled =>
      (compiled.target, compiled.program.procedures.map fun p =>
        Line.labels (fun _ => none) (Mos6502.procedureCode compiled.program p).written)) =
      some (.mos6502, [["M_f", "M_f_epilogue"], ["M_f_epilogue", "M_f_epilogue_epilogue"]]) := by
    decide +kernel
  obtain ⟨compiled, hcompiled, hcompiles⟩ := Checked.exists_of_map hcompiles
  obtain ⟨htarget, hlabels⟩ := Prod.mk.inj hcompiles
  obtain ⟨_, -, -, hemitted⟩ := compile_cases hcompiled
  rw [htarget] at hemitted
  obtain ⟨parts, hfile⟩ := Target.isFile_of_emit (by decide) hemitted
  have hparts := hfile.labels_mos6502.symm.trans hlabels
  refine ⟨by decide, by decide, compiled, parts, hcompiled, htarget ▸ hfile, hparts, ?_⟩
  rw [flatMap_def, hparts]
  decide

end Source.Module

end Retarget
