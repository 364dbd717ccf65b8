import Retarget.Proofs.Code.Typed
import Retarget.Proofs.Run.Execution
import Retarget.Proofs.Run.Memory
import Retarget.Proofs.Run.Simulation

/-!
# Type soundness

In a run of a typed program that starts with arguments in range, every register that is assigned
holds a value of its type, in every activation and at every step, and memory keeps to its types. So do the
values that are handed over at calls and returns (`machines_in_range`).
-/
namespace Retarget

open Activation List Procedure Program

/-! ## Values that fit -/

theorem Number.IsPlace.add {x : Number} (hx : x.IsPlace) (n : Int) : (x.add (.dyadic n 0)).IsPlace := by
  cases x with
  | dyadic a scale =>
    obtain rfl : scale = 0 := hx
    rw [add_dyadic]
    have hround := round_hasNoFraction (a + n)
    have hnan : round (a + n) 0 ≠ .nan := by
      unfold round
      split
      · simp
      · dsimp only
        split
        · generalize nearest _ _ = kept
          generalize 0 - max _ _ = scale
          induction scale generalizing kept with
          | zero => simp [reduce]
          | succ k ih =>
            rw [reduce]
            split
            · exact ih _
            · simp
        · split <;> simp
    cases h : round (a + n) 0 with
    | dyadic m k => exact hround m k h
    | infinite => trivial
    | nan => exact absurd h hnan
  | infinite => trivial
  | nan => exact hx.elim

namespace Ty

theorem IsNumber.isRegister {type : Ty} (h : type.IsNumber) (hw : type.HasWidth) : type.IsRegister := by
  obtain ⟨_, hb⟩ := h
  cases type <;> first | exact hw | cases hb

theorem IsNumber.cell_eq {type : Ty} (h : type.IsNumber) : type.cell = type := by
  obtain ⟨_, hb⟩ := h
  cases type <;> first | rfl | cases hb

theorem IsRegister.cell_eq {type : Ty} (h : type.IsRegister) : type.cell = type := by
  cases type <;> first | rfl | exact h.elim

theorem isNumber_of_wrap {type : Ty} (h : type.wrap x = .ok y) : type.IsNumber := by
  unfold wrap at h
  cases hb : type.valueBits with
  | error =>
    rw [hb] at h
    cases h
  | ok bits =>
    cases bits with
    | none =>
      rw [hb] at h
      cases h
    | some bits => exact ⟨bits, hb⟩

end Ty

theorem isNumber_of_evaluateConversion (h : evaluateConversion x source target = .ok y) : target.IsNumber := by
  unfold evaluateConversion at h
  split at h
  · rename_i ht
    subst ht
    exact ⟨8, rfl⟩
  · simp only [bind, Except.bind] at h
    split at h
    · cases h
    · split at h <;> exact Ty.isNumber_of_wrap h

namespace Program

variable {p : Program} {type : Ty}

theorem fits_number_iff (h : type.IsNumber) : p.Fits type (.number x) ↔ ∃ n, x = .dyadic n 0 ∧ type.Holds n := by
  rw [Fits, h.cell_eq]
  obtain ⟨_, hb⟩ := h
  cases type <;> first | rfl | cases hb

/-- Numbers that fit have no fraction. -/
theorem Fits.isWhole (h : p.Fits type (.number x)) : x.IsWhole := by
  rw [Fits] at h
  cases hc : type.cell with
  | pointer =>
    rw [hc] at h
    exact ⟨0, h⟩
  | string =>
    rw [hc] at h
    exact h
  | _ =>
    rw [hc] at h
    obtain ⟨n, hn, -⟩ := h
    exact ⟨n, hn⟩

theorem Fits.ne_null (h : p.Fits type v) : v ≠ .null := by
  rintro rfl
  rw [Fits] at h
  cases hc : type.cell <;> rw [hc] at h <;> exact h

/-- A pointer that fits leads to a place among cells of the type pointed to, or is part of a string. -/
theorem Fits.places (h : p.Fits type (.pointer block offset)) :
    type.cell = .string ∨ ∃ inner, type.cell = .pointer inner ∧ offset.IsPlace ∧ p.Places inner.cell block := by
  rw [Fits] at h
  cases hc : type.cell with
  | pointer inner =>
    rw [hc] at h
    exact Or.inr ⟨inner, rfl, h⟩
  | string => exact Or.inl rfl
  | _ =>
    rw [hc] at h
    exact h.elim

/-- What fits a type of numbers is a number in its range. -/
theorem Fits.holds (h : p.Fits type v) (hn : type.IsNumber) : ∃ n, v = .number (.dyadic n 0) ∧ type.Holds n := by
  cases v with
  | number =>
    obtain ⟨n, rfl, hholds⟩ := (fits_number_iff hn).mp h
    exact ⟨n, rfl, hholds⟩
  | pointer =>
    -- neither a string nor a pointer is a number
    have hcell := hn.cell_eq
    obtain ⟨_, hb⟩ := hn
    rcases h.places with hc | ⟨_, hc, -⟩ <;> rw [hcell] at hc <;> rw [hc] at hb <;> cases hb
  | null => exact absurd rfl h.ne_null

theorem fits_truth (holds : Bool) : p.Fits .boolean (truth holds) := by
  cases holds
  · exact ⟨0, rfl, Or.inl rfl⟩
  · exact ⟨1, rfl, Or.inr rfl⟩

/-- Types of variables have cells that are cells themselves. -/
theorem Typed.places_cell (hp : p.Typed) (hg : g ∈ p.globals) : g.type.cell.cell = g.type.cell :=
  (hp.globals g hg).type.cell_eq

end Program

/-! ## Operations -/

namespace Operation

variable {p : Program} {returnType : Ty} {get : Register → Except Stop Value} {memory : Memory}
  {operation : Operation} {e : Effect}

/-- The address of a variable or of a string fits a pointer to its cells. -/
theorem fits_address {symbol dest} (hp : p.Typed) (hc : (addressOf symbol dest).Typed p returnType) :
    p.Fits dest.type (.pointer symbol.text 0) := by
  cases symbol with
  | global =>
    obtain ⟨g, hg, rfl, rfl, htype | htype⟩ := hc
    · rw [Fits, htype]
      exact ⟨rfl, Or.inl ⟨g, hg, rfl, rfl⟩⟩
    · rw [Fits, htype]
      exact ⟨rfl, Or.inl ⟨g, hg, rfl, (hp.places_cell hg).symm⟩⟩
  | literal =>
    obtain ⟨htype, s, hs, rfl⟩ := hc
    rw [Fits, htype]
    exact ⟨rfl, Or.inr ⟨rfl, s, hs, rfl⟩⟩

/-- An operation that reads values of the right types writes a value of the right type. -/
theorem Does.fits (hp : p.Typed) (hc : op.Typed p returnType) (hw : ∀ r ∈ op.mentions, r.type.HasWidth)
    (hget : ∀ r ∈ op.reads, ∀ v, get r = .ok v → p.Fits r.type v) (hm : memory.Sound p)
    (h : Does get memory op e) {r} {v : Option Value} (hwrite : e.write = some (r, v)) :
    ∃ w, v = some w ∧ p.Fits r.type w := by
  have hwidth : ∀ r ∈ op.writes, r.type.HasWidth := fun r hr => hw r (mem_append_right _ hr)
  cases h with
  | loadImmediate =>
    cases hwrite
    exact ⟨_, rfl, hc⟩
  | @move source _ v read =>
    cases hwrite
    refine ⟨v, rfl, ?_⟩
    rw [← show source.type = r.type from hc]
    exact hget _ (.head _) _ read
  | @binary _ lhs rhs _ x y z left right result =>
    cases hwrite
    obtain ⟨_, _⟩ := hc
    have hn := isNumber_of_evaluateBinary result
    have hx := (hget lhs (.head _) _ left).isWhole
    have hy := (hget rhs (.tail _ (.head _)) _ right).isWhole
    exact ⟨_, rfl, (fits_number_iff hn).mpr
      (evaluateBinary_holds (hn.isRegister (hwidth _ (.head _))) hx hy result)⟩
  | compare =>
    cases hwrite
    exact ⟨_, rfl, hc.2 ▸ fits_truth _⟩
  | testZero =>
    cases hwrite
    refine ⟨_, rfl, ?_⟩
    rw [show r.type = .boolean from hc]
    exact fits_truth _
  | convertPointer type => exact absurd (hc.2.symm.trans type) (by decide)
  | convert _ read result =>
    cases hwrite
    have hn := isNumber_of_evaluateConversion result
    exact ⟨_, rfl, (fits_number_iff hn).mpr
      (evaluateConversion_holds (hn.isRegister (hwidth _ (.head _))) (hget _ (.head _) _ read).isWhole result)⟩
  | step type read result =>
    cases hwrite
    have hn := Ty.isNumber_of_isNumeric type
    exact ⟨_, rfl, (fits_number_iff hn).mpr (evaluateBinary_holds
      (hn.isRegister (hwidth _ (.head _))) (hget _ (.head _) _ read).isWhole ⟨_, rfl⟩ result)⟩
  | addressOf =>
    cases hwrite
    exact ⟨_, rfl, fits_address hp hc⟩
  | @arrayIndex base index _ _ _ x addr distance =>
    cases hwrite
    refine ⟨_, rfl, ?_⟩
    obtain ⟨n, rfl⟩ := (hget index (.tail _ (.head _)) _ distance).isWhole
    rw [← show base.type = r.type from hc]
    rcases (hget base (.head _) _ addr).places with hs | ⟨_, hi, hplace, hblock⟩
    · rw [Fits, hs]
      trivial
    · rw [Fits, hi]
      exact ⟨hplace.add n, hblock⟩
  | @load addr _ block offset v place read =>
    cases hwrite
    have hfits := hget addr (.head _) _ place
    rw [show addr.type = .pointer r.type from hc] at hfits
    obtain ⟨hplace, hblock⟩ : offset.IsPlace ∧ p.Places r.type.cell block := hfits
    exact hm.read hblock hplace read
  | label | goto | gotoIfFalse | routine | store => cases hwrite

/-- An operation that reads values of the right types keeps memory to its types. -/
theorem Does.memory_sound (hn : p.blockNames.Nodup) (hc : op.Typed p returnType)
    (hget : ∀ r ∈ op.reads, ∀ v, get r = .ok v → p.Fits r.type v) (hm : memory.Sound p)
    (h : Does get memory op e) : e.memory.Sound p := by
  cases h with
  | @store addr value block offset v _ place read written =>
    have hfits := hget addr (.head _) _ place
    rw [show addr.type = .pointer value.type from hc] at hfits
    obtain ⟨hplace, hblock⟩ : offset.IsPlace ∧ p.Places value.type.cell block := hfits
    exact hm.write (fun h h' => h.unique hn h') hblock hplace (hget value (.tail _ (.head _)) _ read) written
  | _ => exact hm

end Operation

/-! ## Activations -/

/-- The arguments fit the parameters that they are for. -/
def Program.Accepts (p : Program) (f : Procedure) (values : List Value) : Prop :=
  ∀ q v, (q, v) ∈ f.parameters.zip values → p.Fits q.register.type v

instance (p : Program) (f : Procedure) (values : List Value) : Decidable (p.Accepts f values) :=
  decidable_of_iff (∀ pair ∈ f.parameters.zip values, p.Fits pair.1.register.type pair.2) Prod.forall

/-- The arguments fit the parameters of the function, if there is one. -/
def Program.AcceptsCall (p : Program) (symbol : Symbol) (arguments : List Value) : Prop :=
  ∀ f, p.find? symbol = some f → p.Accepts f arguments

instance (p : Program) (symbol : Symbol) (arguments : List Value) : Decidable (p.AcceptsCall symbol arguments) :=
  inferInstanceAs (Decidable (∀ f ∈ p.find? symbol, p.Accepts f arguments))

namespace Activation

variable {p : Program} {a b : Activation} {memory memory' : Memory} {r : Register} {v : Value}

/-- Every register that is assigned holds a value of its type. -/
structure Sound (p : Program) (a : Activation) : Prop where
  procedure : a.procedure ∈ p.procedures
  registers : ∀ r ∈ a.procedure.known, ∀ v, a.registers.get? r.id = some v → p.Fits r.type v

section
variable (ha : a.Sound p)
include ha

theorem Sound.get (hr : r ∈ a.procedure.known) (h : a.get r = .ok v) : p.Fits r.type v :=
  ha.registers r hr v (get_eq_ok.mp h)

theorem Sound.set (hp : p.Typed) (hr : r ∈ a.procedure.known)
    (hv : p.Fits r.type v) : (a.set r v).Sound p where
  procedure := ha.procedure
  registers s hs w hw := by
    rw [show (a.set r v).registers = a.registers.set r.id v from rfl, Assoc.get?_set] at hw
    split at hw
    · rename_i hid
      cases hw
      rw [← (hp.procedures _ ha.procedure).types r hr s hs hid]
      exact hv
    · exact ha.registers s hs w hw

theorem Sound.at (position : Nat) : ({ a with position } : Activation).Sound p :=
  ⟨ha.procedure, ha.registers⟩

/-- The next instruction is one of a typed procedure. -/
theorem Sound.next (hp : p.Typed) (h : a.next? = some i) :
    i.operation.Typed p a.procedure.returnType ∧ ∀ r ∈ i.operation.mentions, r ∈ a.procedure.known := by
  have hi := mem_of_getElem? h
  exact ⟨(hp.procedures _ ha.procedure).operations i hi, fun _ hr => mem_known hi hr⟩

theorem Sound.reads (hp : p.Typed) (h : a.next? = some i) :
    ∀ r ∈ i.operation.reads, ∀ v, a.get r = .ok v → p.Fits r.type v :=
  fun r hr _ hv => ha.get ((ha.next hp h).2 r (mem_append_left _ hr)) hv

theorem Sound.goesOn (hp : p.Typed) (hn : p.blockNames.Nodup) (hm : memory.Sound p)
    (h : a.react memory = .goesOn b memory' units) : b.Sound p ∧ memory'.Sound p ∧ b.procedure = a.procedure := by
  obtain ⟨i, e, position, hi, hd, rfl, -, -, rfl⟩ := goesOn_of_react h
  obtain ⟨hc, hmentions⟩ := ha.next hp hi
  have hwidths : ∀ r ∈ i.operation.mentions, r.type.HasWidth := fun r hr =>
    (hp.procedures _ ha.procedure).widths r (hmentions r hr)
  refine ⟨Sound.at ?_ position, hd.memory_sound hn hc (ha.reads hp hi) hm, written_procedure _ _⟩
  cases hw : e.write with
  | none => exact ha
  | some write =>
    obtain ⟨r, v⟩ := write
    obtain ⟨w, rfl, hfits⟩ := hd.fits hp hc hwidths (ha.reads hp hi) hm hw
    exact ha.set hp (hmentions r (mem_append_right _ (hd.mem_writes hw))) hfits

end

/-- Arguments that fit make a sound activation. -/
theorem sound_activation (hp : p.Typed) (hf : f ∈ p.procedures) (h : p.Accepts f values) :
    (f.activation values).Sound p where
  procedure := hf
  registers r hr v hv := by
    have hmem := Assoc.mem_of_get?_ofPairs hv
    rw [parameterIds, zip_map_left, mem_map] at hmem
    obtain ⟨⟨q, w⟩, hq, heq⟩ := hmem
    obtain ⟨hid, hv⟩ := Prod.mk.inj heq
    obtain rfl : w = v := hv
    have hqr := register_mem_known (of_mem_zip hq).1
    rw [← (hp.procedures f hf).types _ hqr r hr hid]
    exact h q w hq

end Activation

/-- Values read from registers of the parameters' types fit the parameters. -/
theorem Program.accepts_of_mapM {p : Program} {get : Register → Except Stop Value} {f} {args : List Register}
    (htypes : args.map Register.type = f.parameters.map (·.register.type))
    (hvals : args.mapM get = .ok values) (hget : ∀ r ∈ args, ∀ v, get r = .ok v → p.Fits r.type v) :
    p.Accepts f values := by
  unfold Accepts
  generalize f.parameters = params at htypes
  induction args generalizing params values with
  | nil =>
    cases hvals
    simp
  | cons r _ ih =>
    obtain _ | ⟨q, params⟩ := params
    · cases htypes
    · simp only [map_cons, cons.injEq] at htypes
      rw [mapM_cons] at hvals
      obtain ⟨v, hv, hvals⟩ := Checked.bind_eq_ok.mp hvals
      obtain ⟨_, hvs, hvals⟩ := Checked.bind_eq_ok.mp hvals
      cases hvals
      intro q' v' hmem
      rcases mem_cons.mp hmem with heq | hmem
      · cases heq
        rw [← htypes.1]
        exact hget r (.head _) v hv
      · exact ih hvs (fun s hs => hget s (.tail _ hs)) params htypes.2 q' v' hmem

/-! ## Machines -/

/-- The callers wait for a value of the given type, and those above them for one of the type that they
return themselves. -/
inductive Awaits (p : Program) : Ty → List Suspended → Prop
  | nil {type : Ty} : Awaits p type []
  | cons {type : Ty} {s : Suspended} {rest : List Suspended} (sound : s.activation.Sound p)
      (carried : type.Carried s.destination)
      (known : ∀ r, s.destination = some r → r ∈ s.activation.procedure.known)
      (above : Awaits p s.activation.procedure.returnType rest) : Awaits p type (s :: rest)

theorem Awaits.sound (h : Awaits p type callers) (hs : s ∈ callers) : s.activation.Sound p := by
  induction h with
  | nil => cases hs
  | cons sound _ _ _ ih =>
    rcases mem_cons.mp hs with rfl | hs
    · exact sound
    · exact ih hs

namespace Machine

variable {p : Program} {m n : Machine}

structure Sound (p : Program) (m : Machine) : Prop where
  memory : m.world.memory.Sound p
  active : m.active.Sound p
  callers : Awaits p m.active.procedure.returnType m.callers

/-- A value that is returned fits the return type; none is returned only where there are none. -/
theorem Sound.returns (hp : p.Typed) (h : m.Sound p) (hr : m.reaction = .returns value) :
    (value = none ∧ m.active.procedure.returnType = .void) ∨
      ∃ v, value = some v ∧ p.Fits m.active.procedure.returnType v ∧
        m.active.procedure.returnType ≠ .void := by
  obtain ⟨i, hi, ⟨hop, rfl⟩ | ⟨r, v, hop, hv, rfl⟩⟩ := returns_of_react hr
  · have hc := (h.active.next hp hi).1
    rw [hop] at hc
    exact Or.inl ⟨rfl, hc⟩
  · have hc := (h.active.next hp hi).1
    have hfits := h.active.reads hp hi r (by rw [hop]; exact .head _) v hv
    rw [hop] at hc
    obtain ⟨htype, hvoid⟩ : r.type = m.active.procedure.returnType ∧ _ := hc
    rw [htype] at hfits
    refine Or.inr ⟨v, ?_, hfits, hvoid⟩
    cases v with
    | null => exact absurd rfl hfits.ne_null
    | number | pointer => rfl

theorem Sound.isAnswered (hp : p.Typed) (h : m.Sound p) : m.IsAnswered := by
  intro value s rest reaction callers
  have hcallers := h.callers
  rw [callers] at hcallers
  cases hcallers with
  | cons _ carried =>
    unfold Suspended.resume
    rcases h.returns hp reaction with ⟨rfl, hvoid⟩ | ⟨v, rfl, -⟩
    · cases hd : s.destination with
      | none => nofun
      | some =>
        rw [hd] at carried
        exact absurd hvoid carried.2
    · cases s.destination <;> nofun

/-- Type soundness of one step. -/
theorem Sound.step (hp : p.Typed) (hn : p.blockNames.Nodup) (h : m.Sound p)
    (ha : m.advance p = .running n) : n.Sound p := by
  cases moves_of_running ha with
  | goesOn reaction =>
    obtain ⟨hb, hm, hf⟩ := h.active.goesOn hp hn h.memory reaction
    exact ⟨hm, hb, hf ▸ h.callers⟩
  | @calls _ _ _ destination f reaction found =>
    obtain ⟨i, _, hi, hop, hvals, rfl⟩ := calls_of_react reaction
    obtain ⟨hc, hmentions⟩ := h.active.next hp hi
    have hget := h.active.reads hp hi
    rw [hop] at hc hget hmentions
    obtain ⟨htypes, hcarried⟩ := hc f found
    refine ⟨h.memory, ?_, .cons ?_ hcarried ?_ h.callers⟩
    · exact sound_activation hp (mem_of_find?_eq_some found)
        (accepts_of_mapM htypes hvals hget)
    · exact h.active.at _
    · rintro r hr
      have hr : destination = some r := hr
      subst hr
      exact hmentions r (mem_append_right _ (.head _))
  | @returns _ s _ a reaction callers resumed =>
    have hcallers := h.callers
    rw [callers] at hcallers
    cases hcallers with
    | cons sound carried known above =>
      unfold Suspended.resume at resumed
      split at resumed
      · cases resumed
        exact ⟨h.memory, sound, above⟩
      · rename_i d v hd
        cases resumed
        rw [hd] at carried
        rcases h.returns hp reaction with ⟨hnone, -⟩ | ⟨w, hw, hfits, -⟩
        · cases hnone
        · cases hw
          refine ⟨h.memory, sound.set hp (known d hd) ?_, above⟩
          rw [carried.1]
          exact hfits
      · cases resumed

theorem sound_start (hp : p.Typed) (hn : p.blockNames.Nodup) (hf : f ∈ p.procedures)
    (h : p.Accepts f args) : (p.startOf f args).Sound p :=
  ⟨initialMemory_sound hp.globals hn, sound_activation hp hf h, .nil⟩

/-- Type soundness of a run. -/
theorem sound_of_steps (hp : p.Typed) (hn : p.blockNames.Nodup) (hf : f ∈ p.procedures)
    (h : p.Accepts f args) (hs : Steps p k (p.startOf f args) n) : n.Sound p :=
  hs.invariant (fun h ha => h.step hp hn ha) (sound_start hp hn hf h)

/-- The activations of the machine, the active one first. -/
def activations (m : Machine) : List Activation := m.active :: m.callers.map (·.activation)

theorem Sound.activation (h : m.Sound p) (ha : a ∈ m.activations) : a.Sound p := by
  rcases mem_cons.mp ha with rfl | ha
  · exact h.active
  · obtain ⟨s, hs, rfl⟩ := mem_map.mp ha
    exact h.callers.sound hs

end Machine

namespace Program

variable {p : Program}

/-- Along every run of a typed program the registers of all activations keep to their types, those of numbers to
the ranges of their types, and the cells of the variables to the types of the variables. -/
theorem machines_in_range (hp : p.Typed) (hn : p.blockNames.Nodup) {symbol : Symbol} {arguments : List Value}
    (ha : p.AcceptsCall symbol arguments) (limit : Number) :
    ∀ m ∈ p.machines symbol arguments limit,
      (∀ a ∈ m.activations, a.procedure ∈ p.procedures ∧
        ∀ r ∈ a.procedure.known, ∀ v, a.registers.get? r.id = some v →
          p.Fits r.type v ∧ (r.type.IsNumber → ∃ n, v = .number (.dyadic n 0) ∧ r.type.Holds n)) ∧
      ∀ g ∈ p.globals, ∃ b, m.world.memory.get? g.qualifiedName = some b ∧
        ∀ v ∈ b.cells, p.Fits g.type.cell v ∧
          (g.type.cell.IsNumber → ∃ n, v = .number (.dyadic n 0) ∧ g.type.cell.Holds n) := by
  intro m hm
  obtain ⟨f, k, hf, -, -, hsteps⟩ := mem_machines.mp hm
  have hsound := Machine.sound_of_steps hp hn (List.mem_of_find?_eq_some hf) (ha f hf) hsteps
  constructor
  · intro a hmem
    have hactivation := hsound.activation hmem
    refine ⟨hactivation.procedure, fun r hr v hv => ?_⟩
    have hfits := hactivation.registers r hr v hv
    exact ⟨hfits, hfits.holds⟩
  · intro g hg
    obtain ⟨b, hb, hholds⟩ := hsound.memory _ _ (.inl ⟨g, hg, rfl, rfl⟩)
    refine ⟨b, hb, fun v hv => ?_⟩
    have hfits : p.Fits g.type.cell v := by
      rw [Fits, hp.places_cell hg]
      exact hholds.cells v hv
    exact ⟨hfits, hfits.holds⟩

/-- Counts its first parameter down and its second one up, by a tail call. -/
def sum : Procedure :=
  let u8 := Ty.integer 8 false
  let count : Register := ⟨.natural 1, u8⟩
  let total : Register := ⟨.natural 2, u8⟩
  let done : Register := ⟨.natural 3, .boolean⟩
  let result : Register := ⟨.natural 4, u8⟩
  { symbol := ⟨"M", "sum", []⟩
    parameters := [⟨"count", count⟩, ⟨"total", total⟩]
    returnType := u8
    locals := []
    registers := [count, total, done, result]
    instructions := [⟨.testZero count false done, ""⟩, ⟨.gotoIfFalse done "more", ""⟩, ⟨.ret (some total), ""⟩,
      ⟨.label "more", ""⟩, ⟨.step .decrement count, ""⟩, ⟨.step .increment total, ""⟩,
      ⟨.call (.function ⟨"M", "sum", []⟩) [count, total] (some result), ""⟩, ⟨.ret (some result), ""⟩]
    smcRequested := false
    isTailRecursive := false
    convention := .standard }

/-- Three activations, in the last of which the sum has wrapped. -/
theorem sum_machines_in_range :
    Program.Typed ⟨"M", [sum], [], []⟩ ∧ Program.AcceptsCall ⟨"M", [sum], [], []⟩ sum.symbol [.number 2, .number 254] ∧
      (Program.machines ⟨"M", [sum], [], []⟩ sum.symbol [.number 2, .number 254] 100).map (·.activations.length) =
        [1, 1, 1, 1, 1, 1, 2, 2, 2, 2, 2, 2, 3, 3, 3, 2, 1] ∧
      ∀ m ∈ Program.machines ⟨"M", [sum], [], []⟩ sum.symbol [.number 2, .number 254] 100, ∀ a ∈ m.activations,
        ∀ v, a.registers.get? (.natural 2) = some v → ∃ n, v = .number (.dyadic n 0) ∧
          (Ty.integer 8 false).Holds n := by
  have hp : Consistent ⟨"M", [sum], [], []⟩ := by decide
  have ha : AcceptsCall ⟨"M", [sum], [], []⟩ sum.symbol [.number 2, .number 254] := by decide
  refine ⟨hp.typed, ha, by decide +kernel, fun m hm a hmem v hv => ?_⟩
  obtain ⟨hprocedure, hregisters⟩ := (machines_in_range hp.typed (by decide) ha 100 m hm).1 a hmem
  rw [mem_singleton.mp hprocedure] at hregisters
  exact (hregisters ⟨.natural 2, .integer 8 false⟩ (by decide) v hv).2 ⟨8, rfl⟩

/-- A program with a variable that lies where the characters of a string are put. The first of them does not fit
the variable. -/
def sharedBlock (directions : List Direction) : Program :=
  let i8 := Ty.integer 8 true
  let address : Register := ⟨.natural 1, .pointer i8⟩
  let value : Register := ⟨.natural 2, i8⟩
  { module := "str_0"
    procedures := [{
      symbol := ⟨"str_0", "f", []⟩
      parameters := []
      returnType := i8
      locals := []
      registers := [address, value]
      instructions := ⟨.addressOf (.global "str_0" "data") address, ""⟩ :: ⟨.load address value, ""⟩ ::
        directions.map (fun direction => ⟨.step direction value, ""⟩) ++ [⟨.ret (some value), ""⟩]
      smcRequested := false
      isTailRecursive := false
      convention := .standard }]
    globals := [⟨"str_0", "data", i8, none⟩]
    literals := [⟨.natural 0, "È"⟩] }

/-- Blocks need names of their own: else a variable starts out of its range, and a register with it. -/
theorem sharedBlock_out_of_range :
    (sharedBlock []).Typed ∧ (sharedBlock []).AcceptsCall ⟨"str_0", "f", []⟩ [] ∧
      ∃ m ∈ (sharedBlock []).machines ⟨"str_0", "f", []⟩ [] 10, ∃ r ∈ m.active.procedure.known,
        r.type = .integer 8 true ∧ m.active.registers.get? r.id = some (.number (.dyadic 200 0)) ∧
          ¬ r.type.Holds 200 := by
  have hp : (sharedBlock []).Consistent := by decide
  exact ⟨hp.typed, by decide, by decide +kernel⟩

end Program

end Retarget
