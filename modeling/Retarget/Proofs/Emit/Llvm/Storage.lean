import Retarget.Proofs.Assoc
import Retarget.Proofs.Code.Consistent
import Retarget.Proofs.Emit.Llvm.Select

/-!
# What storages say of a procedure

A register that is kept as a value is written by one operation of the procedure, and read only behind it in the
same block. The operations that cannot compute a register under a name find it in a slot.
-/
namespace Retarget.Llvm

open Checked List Occurrence

variable {p : Procedure} {blocks : List BasicBlock} {all : List Occurrence} {storages : Storages} {r : Register}
  {o : Occurrence} {storage : Storage}

/-! ## Occurrences -/

theorem mem_occurrences :
    o ∈ occurrences blocks ↔ ∃ block i, blocks[o.block]? = some block ∧ block.instructions[o.position]? = some i ∧
      o.operation = i.operation := by
  obtain ⟨index, pos, _⟩ := o
  simp only [occurrences, mem_flatMap, mem_map, Prod.exists, mk_mem_zipIdx_iff_getElem?, mk.injEq]
  constructor
  · rintro ⟨block, _, hblock, i, _, hi, rfl, rfl, rfl⟩
    exact ⟨block, i, hblock, hi, rfl⟩
  · rintro ⟨block, i, hblock, hi, rfl⟩
    exact ⟨block, index, hblock, i, pos, hi, rfl, rfl, rfl⟩

theorem operations_occurrences (blocks : List BasicBlock) :
    (occurrences blocks).map (·.operation) = (blocks.flatMap (·.instructions)).map (·.operation) := by
  simp only [occurrences, map_flatMap, List.map_map]
  conv_rhs => rw [← zipIdx_map_fst 0 blocks, flatMap_map]
  refine flatMap_congr fun ⟨block, index⟩ _ => ?_
  conv_rhs => rw [← zipIdx_map_fst 0 block.instructions, List.map_map]
  rfl

theorem Occurrence.writes_iff : o.writes r = true ↔ ∃ w ∈ o.operation.writes, w.id = r.id := by
  simp [writes, Register.same]

theorem Occurrence.reads_iff : o.reads r = true ↔ ∃ w ∈ o.operation.reads, w.id = r.id := by
  simp [reads, Register.same]

/-! ## The storage of a register -/

/-- A register that has no slot is no parameter, and has a single definition. -/
theorem classifyRegister_cases (h : classifyRegister p all r = .ok storage) : storage = .slot ∨
    p.isParameterRegister r = false ∧
      ∃ definition, all.filter (·.writes r) = [definition] ∧ storageFor all r definition = .ok storage := by
  unfold classifyRegister at h
  split at h
  · exact Or.inl (Except.ok.inj h).symm
  · rename_i hparam
    split at h
    · rename_i definition hdefinition
      exact Or.inr ⟨Bool.eq_false_iff.mpr hparam, definition, hdefinition, h⟩
    · exact Or.inl (Except.ok.inj h).symm

/-- A register that an operation writes has a slot, unless the operation is the only one that writes it. -/
theorem classifyRegister_of_writes (h : classifyRegister p all r = .ok storage) (ho : o ∈ all)
    (hwrites : o.writes r = true) : storage = .slot ∨ storageFor all r o = .ok storage := by
  refine (classifyRegister_cases h).imp_right ?_
  rintro ⟨-, definition, hdefinition, hstorage⟩
  have hmem : o ∈ [definition] := hdefinition ▸ mem_filter.mpr ⟨ho, hwrites⟩
  exact mem_singleton.mp hmem ▸ hstorage

/-- A value is read only behind its definition, in the same block. -/
theorem follows_of_storageFor (h : storageFor all r o = .ok .value) :
    ∀ o' ∈ all, o'.reads r = true → o'.follows o = true := by
  intro o' ho hreads
  unfold storageFor at h
  split at h
  · obtain ⟨_, -, h⟩ := bind_eq_ok.mp h
    cases h
  · cases h
  · have hvalue := Except.ok.inj h
    split at hvalue
    · rename_i hnamed
      rw [Bool.and_eq_true, all_eq_true] at hnamed
      exact hnamed.2 o' (mem_filter.mpr ⟨ho, hreads⟩)
    · cases hvalue

/-- A register that is kept as a value has a single definition, and is read only behind it in its block. -/
theorem classifyRegister_value (h : classifyRegister p all r = .ok .value) :
    ∃ definition, all.filter (·.writes r) = [definition] ∧
      ∀ o ∈ all, o.reads r = true → o.follows definition = true := by
  obtain ⟨-, definition, hdefinition, hstorage⟩ := (classifyRegister_cases h).resolve_left nofun
  exact ⟨definition, hdefinition, follows_of_storageFor hstorage⟩

/-- Every register of the table has the storage that it is classified by. -/
theorem get?_of_classify (h : classify p blocks = .ok storages) (hnumbered : p.registers.IsNumbered)
    (hr : r ∈ p.registers) :
    ∃ storage, classifyRegister p (occurrences blocks) r = .ok storage ∧ storages.get? r.id = some storage := by
  obtain ⟨pairs, hpairs, h⟩ := bind_eq_ok.mp h
  cases h
  have hforall := forall₂_of_mapM hpairs
  have hkeys : p.registers.map (·.id) = pairs.map Prod.fst := by
    rw [← forall₂_eq_eq_eq, forall₂_map_left_iff, forall₂_map_right_iff]
    refine hforall.imp fun r pair hpair => ?_
    obtain ⟨_, -, hpair⟩ := bind_eq_ok.mp hpair
    cases hpair
    rfl
  obtain ⟨_, hmem, hpair⟩ := exists_partner hforall hr
  obtain ⟨storage, hstorage, hpair⟩ := bind_eq_ok.mp hpair
  cases hpair
  exact ⟨storage, hstorage, Assoc.get?_ofPairs (hkeys ▸ hnumbered.nodup_ids) hmem⟩

/-! ## The values of a procedure -/

def Context.namesOf (ctx : Context) (operation : Operation) : List Name := operation.writes.flatMap ctx.names

theorem Context.mem_namesOf {ctx : Context} :
    name ∈ ctx.namesOf op ↔ ∃ r ∈ op.writes, ctx.storages.get? r.id = some .value ∧ name = .value r.id := by
  simp only [namesOf, mem_flatMap]
  refine exists_congr fun r => and_congr_right fun _ => ?_
  unfold names
  split <;> simp_all

theorem Context.nodup_namesOf {ctx : Context} : (ctx.namesOf op).Nodup := by
  have hone : ∀ r, (ctx.names r).Nodup := fun r => by
    unfold names
    split <;> simp
  cases op with
  | call _ _ dest => cases dest <;> simp [namesOf, Operation.writes, hone]
  | _ => simp [namesOf, Operation.writes, hone]

section
variable {ctx : Context} {block : BasicBlock} {pre post : List Retarget.Instruction} {i : Retarget.Instruction}
  (hclassify : classify p blocks = .ok ctx.storages) (hnumbered : p.registers.IsNumbered)
  (hmentions : ∀ block ∈ blocks, ∀ i ∈ block.instructions, ∀ r, r ∈ i.reads ∨ r ∈ i.writes → r ∈ p.registers)
include hclassify hnumbered hmentions

/-- The operations that cannot compute a register under a name do not have to. -/
theorem suits_of_classify (hblock : block ∈ blocks) (hi : i ∈ block.instructions) : ctx.Suits i.operation := by
  obtain ⟨index, hindex⟩ := mem_iff_getElem?.mp hblock
  obtain ⟨pos, hposn⟩ := mem_iff_getElem?.mp hi
  have hmem : ⟨index, pos, i.operation⟩ ∈ occurrences blocks := mem_occurrences.mpr ⟨block, i, hindex, hposn, rfl⟩
  have hstorage : ∀ r ∈ i.operation.writes, ∃ storage, ctx.storages.get? r.id = some storage ∧
      (storage = .slot ∨ storageFor (occurrences blocks) r ⟨index, pos, i.operation⟩ = .ok storage) := by
    intro r hr
    obtain ⟨storage, hreg, hstorage⟩ := get?_of_classify hclassify hnumbered (hmentions block hblock i hi r (.inr hr))
    exact ⟨storage, hstorage, classifyRegister_of_writes hreg hmem (writes_iff.mpr ⟨r, hr, rfl⟩)⟩
  cases hop : i.operation with
  | move _ target =>
    obtain ⟨_, hget, hcases⟩ := hstorage target (hop ▸ .head _)
    rw [Context.Suits, hget]
    rcases hcases with rfl | hfor
    · rfl
    · rw [hop] at hfor
      exact congrArg some (Except.ok.inj hfor).symm
  | step _ reg =>
    obtain ⟨_, hget, hcases⟩ := hstorage reg (hop ▸ .head _)
    rw [Context.Suits, hget]
    rcases hcases with rfl | hfor
    · rfl
    · rw [hop] at hfor
      exact congrArg some (Except.ok.inj hfor).symm
  | loadImmediate _ dest =>
    obtain ⟨_, hget, rfl | hfor⟩ := hstorage dest (hop ▸ .head _)
    · simp [Context.Suits, hget]
    · rw [hop] at hfor
      obtain ⟨_, -, hconstant⟩ := bind_eq_ok.mp hfor
      cases hconstant
      simp [Context.Suits, hget]
  | addressOf _ dest =>
    obtain ⟨_, hget, rfl | hfor⟩ := hstorage dest (hop ▸ .head _)
    · simp [Context.Suits, hget]
    · rw [hop] at hfor
      cases hfor
      simp [Context.Suits, hget]
  | _ => trivial

/-- A value that an instruction reads was computed before, in the same block. -/
theorem mem_namesOf_of_reads (hblock : block ∈ blocks) (hsplit : block.instructions = pre ++ i :: post)
    (hr : r ∈ i.reads) (hvalue : ctx.storages.get? r.id = some .value) :
    .value r.id ∈ pre.flatMap (ctx.namesOf ·.operation) := by
  obtain ⟨index, hindex⟩ := mem_iff_getElem?.mp hblock
  have hi : i ∈ block.instructions := by simp [hsplit]
  obtain ⟨storage, hreg, hstorage⟩ := get?_of_classify hclassify hnumbered (hmentions block hblock i hi r (.inl hr))
  obtain rfl : storage = .value := Option.some.inj (hstorage.symm.trans hvalue)
  obtain ⟨definition, hdefinition, hfollows⟩ := classifyRegister_value hreg
  have hmem : definition ∈ (occurrences blocks).filter (·.writes r) := hdefinition ▸ .head _
  obtain ⟨hmem, hwrites⟩ := mem_filter.mp hmem
  obtain ⟨_, j, hblock', hj, hop⟩ := mem_occurrences.mp hmem
  have hfollows := hfollows ⟨index, pre.length, i.operation⟩
    (mem_occurrences.mpr ⟨block, i, hindex, by simp [hsplit], rfl⟩) (reads_iff.mpr ⟨r, hr, rfl⟩)
  simp only [follows, Bool.and_eq_true, beq_iff_eq, decide_eq_true_eq] at hfollows
  obtain ⟨rfl, hlt⟩ := hfollows
  obtain rfl := Option.some.inj (hblock'.symm.trans hindex)
  rw [hsplit, getElem?_append_left hlt] at hj
  obtain ⟨w, hw, hid⟩ := writes_iff.mp hwrites
  rw [hop] at hw
  exact mem_flatMap.mpr ⟨j, mem_of_getElem? hj, Context.mem_namesOf.mpr ⟨w, hw, hid ▸ hvalue, by rw [hid]⟩⟩

/-- No value is computed twice. -/
theorem nodup_values : ((blocks.flatMap (·.instructions)).flatMap (ctx.namesOf ·.operation)).Nodup := by
  have hflat : (blocks.flatMap (·.instructions)).flatMap (ctx.namesOf ·.operation) =
      (occurrences blocks).flatMap (ctx.namesOf ·.operation) := by
    simpa only [flatMap_map] using (congrArg (flatMap ctx.namesOf) (operations_occurrences blocks)).symm
  rw [hflat, nodup_flatMap]
  refine ⟨fun o _ => Context.nodup_namesOf, pairwise_iff_forall_sublist.mpr fun {o o'} hsublist name hin hin' => ?_⟩
  obtain ⟨r, hr, hvalue, rfl⟩ := Context.mem_namesOf.mp hin
  obtain ⟨r', hr', -, hid⟩ := Context.mem_namesOf.mp hin'
  obtain ⟨block, i, hblock, hi, hop⟩ := mem_occurrences.mp (hsublist.subset (.head _))
  have hmem : r ∈ p.registers := by
    rw [hop] at hr
    exact hmentions block (mem_of_getElem? hblock) i (mem_of_getElem? hi) r (.inr hr)
  obtain ⟨storage, hreg, hstorage⟩ := get?_of_classify hclassify hnumbered hmem
  obtain rfl : storage = .value := Option.some.inj (hstorage.symm.trans hvalue)
  obtain ⟨_, hdefinition, -⟩ := classifyRegister_value hreg
  -- both would be among the definitions of the register, and there is one
  have hwrites : o.writes r = true := writes_iff.mpr ⟨r, hr, rfl⟩
  have hwrites' : o'.writes r = true := writes_iff.mpr ⟨r', hr', (Name.value.inj hid).symm⟩
  have hboth := (hsublist.filter (·.writes r)).length_le
  simp [hdefinition, hwrites, hwrites'] at hboth

end

end Retarget.Llvm
