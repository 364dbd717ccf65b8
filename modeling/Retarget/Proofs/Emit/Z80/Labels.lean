import Retarget.Emit.Z80.Module
import Retarget.Proofs.Emit.Marking

/-!
# Labels in code for the Z80

Instructions are selected without labels but those of the intermediate code, and one behind every comparison. Around
the code of the instructions a procedure has its entry and its exit, or its entry, its slots and its storage.
-/
namespace Retarget.Z80

open Emit Line List Mark

variable {ctx : Context}

/-! ## Code without labels -/

@[simp] theorem arePlain_z80 : ArePlain (code is) := arePlain_map

@[simp] theorem arePlain_loadA (home : Home) : ArePlain (loadA home) := arePlain_map

@[simp] theorem arePlain_storeA (home : Home) : ArePlain (storeA home) := arePlain_map

@[simp] theorem arePlain_loadHL (home : Home) : ArePlain (loadHL home offset) := by
  cases home <;> exact arePlain_map

@[simp] theorem arePlain_loadDE (home : Home) : ArePlain (loadDE home) := by
  cases home <;> exact arePlain_map

@[simp] theorem arePlain_storeHL (home : Home) : ArePlain (storeHL home offset) := by
  cases home <;> exact arePlain_map

@[simp] theorem arePlain_copyFour : ArePlain (copyFour source target) :=
  arePlain_flatMap fun _ _ => arePlain_map

@[simp] theorem arePlain_storeWords (home : Home) : ArePlain (storeWords home words offset) := by
  induction words generalizing offset with
  | nil => exact arePlain_nil
  | cons _ _ ih => simp [storeWords, ih]

@[simp] theorem arePlain_loadImmediate (home : Home) : ArePlain (loadImmediate value size home) := by
  cases size <;> simp [loadImmediate]

@[simp] theorem arePlain_pushFrom (home : Home) : ArePlain (pushFrom home size) := by
  cases size <;> simp [pushFrom]

@[simp] theorem arePlain_dropArguments : ArePlain (dropArguments words) :=
  forall_mem_map.mpr fun _ _ => ⟨_, _, rfl⟩

@[simp] theorem arePlain_framePrologue : ArePlain (framePrologue size) := by
  unfold framePrologue
  split <;> simp

/-! ## Parts of instructions -/

theorem silent_homeOf : (homeOf ctx r).Silent := by
  unfold homeOf
  split
  · exact quiet_pure (by simp [*])
  · exact quiet_throw

theorem silent_sizeOfType : (sizeOfType type).Silent := quiet_check.mono fun _ _ => trivial

theorem silent_accumulator : accumulator.Silent := quiet_useExternal.bind fun _ _ => quiet_pure (by simp [*])

theorem silent_operand : operand.Silent := quiet_useExternal.bind fun _ _ => quiet_pure (by simp [*])

theorem plain_callExternal : (callExternal name).Plain :=
  quiet_useExternal.bind fun _ _ => quiet_pure (by simp [*])

theorem plain_callRoutineFor : (callRoutineFor op type).Plain :=
  quiet_check.bind fun _ _ => plain_callExternal

theorem plain_loadValue : (loadValue ctx r).Plain := by
  refine silent_homeOf.bind fun home _ => silent_sizeOfType.bind fun size _ => ?_
  cases size with
  | one | two => exact quiet_pure (by simp [*])
  | four => exact silent_accumulator.bind fun _ _ => quiet_pure (by simp [*])

theorem plain_storeValue : (storeValue ctx r).Plain := by
  refine silent_homeOf.bind fun home _ => silent_sizeOfType.bind fun size _ => ?_
  cases size with
  | one | two => exact quiet_pure (by simp [*])
  | four => exact silent_accumulator.bind fun _ _ => quiet_pure (by simp [*])

theorem plain_compareFlags : (compareFlags ctx test bias).Plain := by
  refine silent_sizeOfType.bind fun size _ => ?_
  cases size with
  | one | two => exact silent_homeOf.bind fun _ _ => silent_homeOf.bind fun _ _ => quiet_pure (by simp [*])
  | four =>
    exact silent_homeOf.bind fun _ _ => silent_accumulator.bind fun _ _ => silent_homeOf.bind fun _ _ =>
      silent_operand.bind fun _ _ => plain_callRoutineFor.bind fun _ hcall => quiet_pure (by simp [*])

theorem plain_wordOperation : (wordOperation operator type).Plain := by
  unfold wordOperation
  split
  all_goals first | exact quiet_pure (by simp [*]) | exact plain_callRoutineFor

theorem plain_arithmetic : (arithmetic ctx operator lhs rhs dest).Plain := by
  refine silent_homeOf.bind fun _ _ => silent_homeOf.bind fun _ _ => silent_homeOf.bind fun _ _ =>
    silent_sizeOfType.bind fun size _ => ?_
  cases size with
  | one =>
    simp only [pure_bind]
    split
    · exact quiet_pure (by simp [*])
    · exact quiet_pure (by simp [*])
    · exact plain_callRoutineFor.bind fun _ hcall => quiet_pure (by simp [*])
  | two => exact plain_wordOperation.bind fun _ h => quiet_pure (by simp [*])
  | four =>
    exact silent_accumulator.bind fun _ _ => silent_operand.bind fun _ _ => plain_callRoutineFor.bind fun _ hcall =>
      quiet_pure (by simp [*])

theorem plain_step : (step ctx direction r).Plain := by
  unfold step
  refine .ite (quiet_check.bind fun _ _ => quiet_throw) ?_
  refine silent_homeOf.bind fun _ _ => silent_sizeOfType.bind fun size _ => ?_
  cases size with
  | one => exact .ite (quiet_pure (by simp [*])) (quiet_pure (by simp [*]))
  | two => exact .ite (quiet_pure (by simp)) (.ite (quiet_pure (by simp [*])) (quiet_pure (by simp [*])))
  | four =>
    exact silent_accumulator.bind fun _ _ => silent_operand.bind fun _ _ => plain_callRoutineFor.bind fun _ hcall =>
      quiet_pure (by simp [*])

theorem plain_convert : (convert ctx source target).Plain := by
  refine plain_loadValue.bind fun load hload => ?_
  have hstore : ∀ call, ArePlain call → Plain (do return load ++ call ++ (← storeValue ctx target)) :=
    fun call hcall => plain_storeValue.bind fun _ h => quiet_pure (by simp [*])
  simp only [pure_bind]
  exact .ite (hstore _ (by simp)) (quiet_check.bind fun _ _ => plain_callExternal.bind hstore)

theorem plain_callRoutine : (callRoutine ctx routine args).Plain :=
  (Quiet.mapM fun r _ => plain_loadValue).bind fun _ hloads => plain_callExternal.bind fun _ hcall =>
    quiet_pure (by simp [arePlain_flatten hloads, hcall])

theorem plain_patchSlots : (patchSlots ctx callee name pairs).Plain := by
  induction pairs with
  | nil => exact quiet_pure (by simp [*])
  | cons pair _ ih =>
    obtain ⟨q, _⟩ := pair
    refine silent_homeOf.bind fun _ _ => silent_sizeOfType.bind fun size _ => ?_
    cases size with
    | one | two => exact quiet_check.bind fun _ _ => ih.bind fun _ h => quiet_pure (by simp [*])
    | four => exact .bind (P := fun _ => False) quiet_refuse fun _ h => h.elim

theorem plain_pushArguments : (pushArguments ctx args).Quiet fun result => ArePlain result.1 := by
  induction args with
  | nil => exact quiet_pure (by simp [*])
  | cons arg _ ih =>
    exact silent_homeOf.bind fun _ _ => silent_sizeOfType.bind fun _ _ => ih.bind fun _ h => quiet_pure (by simp [*])

theorem plain_callFunction : (callFunction ctx symbol args dest).Plain := by
  unfold callFunction
  split
  · exact quiet_check.bind fun _ _ => quiet_throw
  · refine quiet_check.bind fun name _ => ?_
    rcases dest with _ | r
    on_goal 1 => refine quiet_pure arePlain_nil |>.bind fun result hresult => ?_
    on_goal 2 => refine plain_storeValue.bind fun result hresult => ?_
    all_goals
      split
      · exact plain_patchSlots.bind fun _ h => quiet_pure (by simp [*])
      · exact plain_pushArguments.bind fun _ h => quiet_pure (by simp [*])

theorem plain_scaleIndex : (scaleIndex size).Plain := by
  unfold scaleIndex
  split
  · exact quiet_pure (by simp [*])
  · exact plain_callExternal.bind fun _ h => quiet_pure (by simp [*])

theorem plain_arrayIndex : (arrayIndex ctx base index dest).Plain := by
  refine quiet_check.bind fun _ _ => quiet_check.bind fun _ _ => silent_homeOf.bind fun _ _ =>
    silent_sizeOfType.bind fun size _ => plain_scaleIndex.bind fun _ hscale => silent_homeOf.bind fun _ _ =>
    silent_homeOf.bind fun _ _ => quiet_pure ?_
  cases size <;> simp [hscale]

theorem plain_load : (load ctx addr dest).Plain := by
  refine silent_homeOf.bind fun _ _ => silent_homeOf.bind fun _ _ => silent_sizeOfType.bind fun size _ => ?_
  cases size with
  | one | two => exact quiet_pure (by simp [*])
  | four => exact quiet_useExternal.bind fun _ _ => quiet_pure (by simp [*])

theorem plain_store : (store ctx addr value).Plain := by
  refine silent_homeOf.bind fun _ _ => silent_homeOf.bind fun _ _ => silent_sizeOfType.bind fun size _ => ?_
  cases size with
  | one | two => exact quiet_pure (by simp [*])
  | four => exact quiet_useExternal.bind fun _ _ => quiet_pure (by simp [*])

/-! ## Instructions -/

theorem marks_materialize : (materialize ctx condition destination).Marks ctx.name [] := by
  intro s _ _ hgives
  simp only [materialize, gives_bind, gives_makeLabel, gives_pure] at hgives
  obtain ⟨_, t, ⟨rfl, rfl⟩, home, u, hhome, rfl, rfl⟩ := hgives
  obtain ⟨hnumbers, -⟩ := silent_homeOf hhome
  rw [hnumbers]
  refine ⟨_, covers_made (by decide : "cmp" ∈ madeKinds) s.numbers, fun equated? => ?_⟩
  rw [labels_append, labels_append, arePlain_z80.labels_eq, (arePlain_storeA home).labels_eq]
  rfl

/-- Code before a comparison's result is brought about makes no difference. -/
theorem marks_flags (hflags : ArePlain flags) :
    Marks ctx.name [] (do return flags ++ (← materialize ctx condition destination)) :=
  marks_materialize.bind fun _ => quiet_pure fun _ => by simp [hflags.labels_eq]

theorem marks_compare : (compare ctx comparison lhs rhs destination).Marks ctx.name [] := by
  refine quiet_check.bind_marks fun test _ => ?_
  have hcompare : ∀ bias, Marks ctx.name [] (do
      let flags ← compareFlags ctx test bias
      return flags ++ (← materialize ctx test.condition destination)) :=
    fun bias => plain_compareFlags.bind_marks fun _ hflags => marks_flags hflags
  dsimp only
  split
  · exact quiet_check.bind_marks fun bias _ => hcompare bias
  · exact hcompare false

theorem marks_testZero : (testZero ctx source negated destination).Marks ctx.name [] := by
  refine silent_homeOf.bind_marks fun _ _ => silent_sizeOfType.bind_marks fun size _ => marks_flags ?_
  cases size with
  | one => simp
  | two => simp
  | four => simp

theorem plain_ret : (select ctx (.ret reg)).Plain := by
  cases reg with
  | none => exact quiet_pure (by simp [*])
  | some => exact plain_loadValue.bind fun _ h => quiet_pure (by simp [*])

/-- An instruction has the label that it is, if it is one, and those that are made for it. -/
theorem marks_select (operation : Operation) : (select ctx operation).Marks ctx.name operation.labelName?.toList := by
  cases operation with
  | loadImmediate =>
    exact (silent_sizeOfType.bind fun _ _ => silent_homeOf.bind fun _ _ => quiet_pure (by simp [*])).marks
  | move =>
    exact (plain_loadValue.bind fun _ h => plain_storeValue.bind fun _ h' => quiet_pure (by simp [h, h'])).marks
  | binary => exact plain_arithmetic.marks
  | compare => exact marks_compare
  | testZero => exact marks_testZero
  | convert => exact plain_convert.marks
  | step => exact plain_step.marks
  | label => exact marks_label
  | goto => exact Quiet.marks (quiet_pure (by simp [*]))
  | gotoIfFalse | addressOf => exact (silent_homeOf.bind fun _ _ => quiet_pure (by simp [*])).marks
  | call target =>
    cases target with
    | routine => exact plain_callRoutine.marks
    | function => exact plain_callFunction.marks
  | ret => exact plain_ret.marks
  | arrayIndex => exact plain_arrayIndex.marks
  | load => exact plain_load.marks
  | store => exact plain_store.marks
  | unknown => exact quiet_throw.marks

/-! ## Procedures -/

/-- The name that a line gives to the operand of a load: in `b_imm EQU b_op+1`, the first. The base is found by its
length, whatever it is made of. -/
def equated? (text : String) : Option String :=
  let base := String.ofList (text.toList.take ((text.length - 14) / 2))
  if text = base ++ "_imm EQU " ++ base ++ "_op+1" then some (base ++ "_imm") else none

theorem equated?_slot {base label} (h : label = base ++ "_imm") :
    equated? s!"{label} EQU {base}_op+1" = some label := by
  have htext : s!"{label} EQU {base}_op+1" = base ++ "_imm EQU " ++ base ++ "_op+1" := by
    rw [h]
    exact String.ext (by simp [toString])
  have hlen : ((base ++ "_imm EQU " ++ base ++ "_op+1").length - 14) / 2 = base.toList.length := by
    have hfirst : "_imm EQU ".length = 9 := rfl
    have hsecond : "_op+1".length = 5 := rfl
    simp only [String.length_append, String.length_toList]
    omega
  have hbase : String.ofList ((base ++ "_imm EQU " ++ base ++ "_op+1").toList.take
      (((base ++ "_imm EQU " ++ base ++ "_op+1").length - 14) / 2)) = base := by
    rw [hlen]
    simp
  rw [htext, h, equated?]
  simp only [hbase, if_true]

@[simp] theorem labels_procedureHead (name : String) (convention : Convention) :
    labels equated? (procedureHead name convention) = [name] := by
  have hcomment : equated? s!"; {convention.name} convention" = none := by cases convention <;> decide +kernel
  simp only [procedureHead, labels, filterMap_cons, defines?, hcomment, filterMap_nil]

variable {p : Procedure} {symbol : String} {s s' : Session} {lines : Code}

def slotMarks (parameters : List Parameter) : List Mark :=
  parameters.flatMap fun q => [.load q.name, .operand q.name]

theorem slotMarks_cons (q : Parameter) (rest : List Parameter) :
    slotMarks (q :: rest) = [.load q.name, .operand q.name] ++ slotMarks rest := rfl

def homeMarks (registers : List Register) : List Mark := registers.map fun r => .home r.id

/-- The slots are labelled by their parameters. -/
theorem slotsFrom_cons {q rest pos slots} (h : Gives (slotsFrom p (q :: rest) pos) s slots s') :
    ∃ slot others pos' t, slots = slot :: others ∧ slotLabel p q = .ok slot.label ∧
      Gives (slotsFrom p rest pos') t others s' := by
  unfold slotsFrom at h
  simp only [gives_bind, gives_check] at h
  obtain ⟨_, t, ⟨-, rfl⟩, h⟩ := h
  split at h
  · simp only [gives_bind, gives_check, gives_refuse, false_and, exists_false, and_false] at h
  · simp only [gives_bind, gives_check, gives_pure] at h
    obtain ⟨_, t, ⟨hlabel, rfl⟩, others, u, hothers, rfl, rfl⟩ := h
    exact ⟨_, others, _, _, rfl, hlabel, hothers⟩

theorem smcPrologue_cons (hbase : slotBase p q = .ok base)
    (h : Gives (smcPrologue p homes ((q, slot) :: rest)) s lines s') :
    ∃ load why store others t, ArePlain store ∧
      lines = [.label s!"{base}_op", .code load why, .raw s!"{slot.label} EQU {base}_op+1"] ++ store ++ others ∧
      Gives (smcPrologue p homes rest) t others s' := by
  simp only [smcPrologue, hbase, gives_bind, gives_check, Except.ok.injEq] at h
  obtain ⟨_, t, ⟨rfl, rfl⟩, h⟩ := h
  split at h
  · exact absurd h gives_throw
  · simp only [gives_bind, gives_pure] at h
    obtain ⟨others, u, hothers, rfl, rfl⟩ := h
    refine ⟨_, _, _, others, _, ?_, rfl, hothers⟩
    split <;> simp

/-- Every slot has the label of its load and that of its operand. -/
theorem labels_smcPrologue {homes} (hsym : p.symbol.text = .ok symbol) {params pos slots t t'}
    (hslots : Gives (slotsFrom p params pos) t slots t')
    (hlines : Gives (smcPrologue p homes (params.zip slots)) s lines s') :
    labels equated? lines = (slotMarks params).map (·.text symbol) := by
  induction params generalizing pos slots t s lines with
  | nil =>
    obtain ⟨rfl, -⟩ := gives_pure.mp hlines
    rfl
  | cons q _ ih =>
    obtain ⟨slot, _, _, u, rfl, hlabel, hothers⟩ := slotsFrom_cons hslots
    have hbase : slotBase p q = .ok (symbol ++ "_" ++ q.name) := by
      rw [slotBase, hsym]
      rfl
    have hslot : slot.label = symbol ++ "_" ++ q.name ++ "_imm" := by
      rw [slotLabel, hbase] at hlabel
      exact (Except.ok.inj hlabel).symm
    obtain ⟨_, _, _, _, v, hstore, rfl, hnext⟩ := smcPrologue_cons hbase hlines
    have hload : (Mark.load q.name).text symbol = symbol ++ "_" ++ q.name ++ "_op" := String.append_assoc.symm
    have hoperand : (Mark.operand q.name).text symbol = slot.label := hslot ▸ String.append_assoc.symm
    have hraw := equated?_slot hslot
    rw [labels_append, labels_append, hstore.labels_eq, ih hothers hnext, slotMarks_cons, map_append,
      map_cons, map_singleton, hload, hoperand]
    simp only [labels, filterMap_cons, defines?, hraw]
    rfl

/-- Storage has the labels of the registers. -/
theorem labels_staticStorage (hp : p.registers.IsNumbered) (hregs : regs ⊆ p.registers)
    (h : Gives (staticStorage (staticHomes symbol p) regs) s lines s') :
    labels equated? lines = (homeMarks regs).map (·.text symbol) := by
  induction regs generalizing s lines with
  | nil =>
    obtain ⟨rfl, -⟩ := gives_pure.mp h
    rfl
  | cons r _ ih =>
    rw [cons_subset] at hregs
    have hhome : (staticHomes symbol p).get? r.id = some (.static s!"{symbol}_{r.text}") := by
      refine Assoc.get?_ofPairs ?_ (mem_map.mpr ⟨r, hregs.1, rfl⟩)
      rw [map_map]
      exact hp.nodup_ids
    simp only [staticStorage, hhome, gives_bind, gives_pure] at h
    obtain ⟨_, t, -, _, u, ⟨rfl, rfl⟩, _, v, hothers, rfl, rfl⟩ := h
    rw [labels_append, ih hregs.2 hothers]
    rfl

theorem mem_slotMarks (h : m ∈ slotMarks params) : ∃ name, m = .load name ∨ m = .operand name := by
  obtain ⟨q, -, hm⟩ := mem_flatMap.mp h
  exact ⟨q.name, by simpa using hm⟩

theorem nodup_slotMarks {params} (hd : (params.map (·.name)).Nodup) : (slotMarks params).Nodup := by
  refine nodup_flatMap.mpr ⟨fun q _ => by simp, (pairwise_map.mp hd).imp fun {q q'} hne => ?_⟩
  simp [Function.onFun, hne.symm]

theorem nodup_homeMarks (hp : p.registers.IsNumbered) : (homeMarks p.registers).Nodup := by
  have hids := hp.nodup_ids.map fun _ _ => home.inj
  rwa [map_map] at hids

/-- Entry, slots and storage of a procedure are told apart by what they are, and among each other by their names. -/
theorem nodup_outerMarks (hp : p.HasDistinctNames) :
    (.entry :: slotMarks p.parameters ++ homeMarks p.registers).Nodup := by
  refine nodup_append.mpr ⟨nodup_cons.mpr ⟨fun hentry => ?_, nodup_slotMarks hp.parameters⟩,
    nodup_homeMarks hp.registers, ?_⟩
  · obtain ⟨_, h | h⟩ := mem_slotMarks hentry <;> cases h
  · rintro m hm _ hm' rfl
    obtain ⟨r, -, rfl⟩ := mem_map.mp hm'
    rcases mem_cons.mp hm with h | hm
    · cases h
    · obtain ⟨_, h | h⟩ := mem_slotMarks hm <;> cases h

theorem outerMarks_isProper (hp : p.HasDistinctNames) :
    ∀ m ∈ entry :: slotMarks p.parameters ++ homeMarks p.registers, m.IsProper ∧ m.isInner = false := by
  simp only [cons_append, forall_mem_cons, forall_mem_append]
  refine ⟨⟨trivial, rfl⟩, fun m hm => ?_, forall_mem_map.mpr fun r hr => ⟨?_, rfl⟩⟩
  · obtain ⟨_, rfl | rfl⟩ := mem_slotMarks hm <;> exact ⟨trivial, rfl⟩
  · obtain ⟨i, hi⟩ := mem_iff_getElem?.mp hr
    exact ⟨i + 1, hp.registers i r hi⟩

theorem areLabels_procedureCode {program} (hp : p.HasDistinctNames) (hsym : p.symbol.text = .ok symbol)
    (h : Gives (procedureCode program p) s lines s') : AreLabels symbol (labels equated? lines) := by
  simp only [procedureCode, hsym, gives_bind, gives_check, Except.ok.injEq] at h
  obtain ⟨_, t, ⟨rfl, rfl⟩, h⟩ := h
  split at h
  · simp only [standardProcedure, gives_bind, gives_pure] at h
    obtain ⟨_, t, hframe, _, u, hbody, rfl, rfl⟩ := h
    obtain ⟨_, hmarks, hlabels⟩ := marks_selectEach marks_select hp.labels hbody
    have hall := hmarks.areLabels hp.names symbol [.entry] [.exit] (by decide) (by simp [IsProper, isInner])
    simpa [hlabels, arePlain_framePrologue.labels_eq, epilogue, arePlain_z80.labels_eq] using hall
  · simp only [smcProcedure, gives_bind, gives_pure] at h
    obtain ⟨_, t, hbody, _, u, hslots, _, v, hprologue, _, w, hstorage, rfl, rfl⟩ := h
    obtain ⟨_, hmarks, hlabels⟩ := marks_selectEach marks_select hp.labels hbody
    have hall := hmarks.areLabels hp.names symbol (.entry :: slotMarks p.parameters) (homeMarks p.registers)
      (nodup_outerMarks hp) (outerMarks_isProper hp)
    simpa [hlabels, labels_smcPrologue hsym hslots hprologue,
      labels_staticStorage hp.registers (Subset.refl _) hstorage] using hall

end Retarget.Z80
