import Retarget.Emit.Mos6502.Frame
import Retarget.Emit.Z80.Select
import Retarget.Proofs.Emit.Placement
import Retarget.Proofs.Emit.Session

/-!
# Frames

On the Z80 the arguments lie above `IX`, behind the saved `IX` and the return address, and the locals below it. On the
6502 the locals come first, then the return address and the arguments. Either way every register of a procedure has
bytes of its own, all of them within reach, and a frame is refused exactly if it is too large for that
(`frames_isLaidOut`).
-/
namespace Retarget

open Checked Emit List

variable {p : Procedure} {s s' : Session} {ms ns : List Nat}

/-! ## Refusals -/

namespace Emit

variable {α β : Type}

/-- The emission is refused, with some message. -/
def Refuses (x : Emit α) (s : Session) : Prop := ∃ message, x.run s = .error (.refused message)

@[simp] theorem refuses_check_bind {f : α → Emit β} : Refuses (check x >>= f) s ↔ ∃ a, x = .ok a ∧ Refuses (f a) s := by
  cases x with
  | error =>
    simp only [reduceCtorEq, false_and, exists_false, iff_false]
    rintro ⟨_, h⟩
    cases h
  | ok => simp [check]

variable {c : Prop} [Decidable c]

theorem gives_unless {a : α} :
    Gives (do
      if c then refuse message
      return a) s b s' ↔ ¬ c ∧ b = a ∧ s' = s := by
  by_cases hc : c <;> simp [hc]

theorem refuses_unless {a : α} :
    Refuses (do
      if c then refuse message
      return a) s ↔ c := by
  by_cases hc : c
  · simp only [hc, if_true, iff_true]
    exact ⟨message, rfl⟩
  · simp only [hc, if_false, iff_false]
    rintro ⟨_, h⟩
    cases h

end Emit

/-! ## Locals and parameters -/

namespace Procedure

variable {r : Register} {lies : Register → Int → Nat → Prop} {below : Nat → Nat → Int} {low middle base high : Int}

theorem mem_localRegisters : r ∈ p.localRegisters ↔ r ∈ p.registers ∧ r.id ∉ p.parameterIds := by
  simp [localRegisters]

theorem id_ne_of_mem (hr : r ∈ p.localRegisters) (hq : q ∈ p.parameters) : r.id ≠ q.register.id := fun heq =>
  (mem_localRegisters.mp hr).2 (heq ▸ mem_map_of_mem hq)

/-- The ids in the register table are different, and the table has the registers of the parameters. -/
structure HasTable (p : Procedure) : Prop where
  distinct : (p.registers.map (·.id)).Nodup
  parameters : ∀ q ∈ p.parameters, q.register ∈ p.registers

theorem HasTable.eq_of_id (h : p.HasTable) (hr : r ∈ p.registers) (hr' : r' ∈ p.registers) (hid : r.id = r'.id) :
    r = r' := inj_on_of_nodup_map h.distinct hr hr' hid

theorem HasTable.mem_cases (h : p.HasTable) (hr : r ∈ p.registers) :
    r ∈ p.localRegisters ∨ ∃ q ∈ p.parameters, q.register = r := by
  by_cases hid : r.id ∈ p.parameterIds
  · obtain ⟨q, hq, hid⟩ := mem_map.mp hid
    exact .inr ⟨q, hq, h.eq_of_id (h.parameters q hq) hr hid⟩
  · exact .inl (mem_localRegisters.mpr ⟨hr, hid⟩)

/-- The bytes of all locals and of all arguments. -/
structure Measures (p : Procedure) (localBytes : Register → Checked Nat) (argumentBytes : Parameter → Checked Nat)
    (ms ns : List Nat) : Prop where
  locals : p.localRegisters.mapM localBytes = .ok ms
  arguments : p.parameters.mapM argumentBytes = .ok ns

theorem Measures.unique {ms' ns'} (h : p.Measures f g ms ns) (h' : p.Measures f g ms' ns') : ms = ms' ∧ ns = ns' :=
  ⟨Except.ok.inj (h.locals.symm.trans h'.locals), Except.ok.inj (h.arguments.symm.trans h'.arguments)⟩

/-- Every register of the table has bytes of its own, those of the locals and those of the parameters within their
bounds. -/
structure IsLaidOut (p : Procedure) (lies : Register → Int → Nat → Prop) (low middle base high : Int) : Prop where
  complete : ∀ r ∈ p.registers, ∃ offset size, lies r offset size
  apart : ∀ r ∈ p.registers, ∀ r' ∈ p.registers, r ≠ r' → ∀ {offset size offset' size'},
    lies r offset size → lies r' offset' size' → offset + size ≤ offset' ∨ offset' + size' ≤ offset
  locals : ∀ r ∈ p.localRegisters, ∀ {offset size}, lies r offset size → low ≤ offset ∧ offset + size ≤ middle
  parameters : ∀ q ∈ p.parameters, ∀ {offset size}, lies q.register offset size → base ≤ offset ∧ offset + size ≤ high

/-- Registers lie where they are placed: locals by the bytes before them, parameters upwards from a base. -/
structure Follows (p : Procedure) (lies : Register → Int → Nat → Prop) (ms ns : List Nat) (below : Nat → Nat → Int)
    (base : Int) : Prop where
  lengths : p.localRegisters.length = ms.length ∧ p.parameters.length = ns.length
  unique : ∀ {r offset size offset' size'}, lies r offset size → lies r offset' size' → offset = offset' ∧ size = size'
  locals : ∀ {r start n}, HasPlace (·.id) p.localRegisters ms r start n → lies r (below start n) n
  parameters : ∀ {q start n}, HasPlace (·.register.id) p.parameters ns q start n →
    ∃ m ≤ n, lies q.register (base + start) m

namespace Follows

variable (h : p.Follows lies ms ns below base) (hp : p.HasTable)
include h hp

theorem place_local (hr : r ∈ p.localRegisters) :
    ∃ start n, HasPlace (·.id) p.localRegisters ms r start n ∧ lies r (below start n) n := by
  obtain ⟨_, start, n, hid, hplace⟩ := exists_hasPlace h.lengths.1 ⟨r, hr, rfl⟩
  obtain rfl := hp.eq_of_id (mem_localRegisters.mp hplace.mem).1 (mem_localRegisters.mp hr).1 hid
  exact ⟨start, n, hplace, h.locals hplace⟩

theorem place_parameter (hq : q ∈ p.parameters) : ∃ q' start n m, q'.register = q.register ∧ m ≤ n ∧
    HasPlace (·.register.id) p.parameters ns q' start n ∧ lies q.register (base + start) m := by
  obtain ⟨q', start, n, hid, hplace⟩ := exists_hasPlace h.lengths.2 ⟨q, hq, rfl⟩
  have heq := hp.eq_of_id (hp.parameters q' hplace.mem) (hp.parameters q hq) hid
  obtain ⟨m, hle, hlies⟩ := h.parameters hplace
  exact ⟨q', start, n, m, heq, hle, hplace, heq ▸ hlies⟩

/-- What lies where it is placed is laid out, if the places of the locals keep apart and stay below the parameters. -/
theorem isLaidOut (hlow : ∀ {a m}, a + m ≤ ms.sum → low ≤ below a m ∧ below a m + m ≤ middle)
    (hapart : ∀ {a m b n}, a + m ≤ b ∨ b + n ≤ a → below a m + m ≤ below b n ∨ below b n + n ≤ below a m)
    (hmiddle : middle ≤ base) (hhigh : base + ns.sum ≤ high) : p.IsLaidOut lies low middle base high := by
  have hlocals : ∀ r ∈ p.localRegisters, ∀ {offset size}, lies r offset size →
      low ≤ offset ∧ offset + size ≤ middle := by
    intro r hr _ _ hlies
    obtain ⟨_, n, hplace, hlies'⟩ := h.place_local hp hr
    obtain ⟨rfl, rfl⟩ := h.unique hlies hlies'
    exact hlow hplace.le_sum
  have hparams : ∀ q ∈ p.parameters, ∀ {offset size}, lies q.register offset size →
      base ≤ offset ∧ offset + size ≤ high := by
    intro q hq _ _ hlies
    obtain ⟨_, _, n, m, -, hle, hplace, hlies'⟩ := h.place_parameter hp hq
    obtain ⟨rfl, rfl⟩ := h.unique hlies hlies'
    have := hplace.le_sum
    constructor <;> omega
  refine ⟨fun r hr => ?_, fun r hr r' hr' hne offset size offset' size' hlies hlies' => ?_, hlocals, hparams⟩
  · rcases hp.mem_cases hr with hr | ⟨q, hq, rfl⟩
    · obtain ⟨_, n, -, hlies⟩ := h.place_local hp hr
      exact ⟨_, n, hlies⟩
    · obtain ⟨_, _, n, m, -, -, -, hlies⟩ := h.place_parameter hp hq
      exact ⟨_, m, hlies⟩
  -- registers of one kind by their places, a local and a parameter by their bounds
  · have hid : r.id ≠ r'.id := fun heq => hne (hp.eq_of_id hr hr' heq)
    rcases hp.mem_cases hr with hr | ⟨q, hq, rfl⟩ <;> rcases hp.mem_cases hr' with hr' | ⟨q', hq', rfl⟩
    · obtain ⟨_, n, hplace, hat⟩ := h.place_local hp hr
      obtain ⟨_, _, hplace', hat'⟩ := h.place_local hp hr'
      obtain ⟨rfl, rfl⟩ := h.unique hlies hat
      obtain ⟨rfl, rfl⟩ := h.unique hlies' hat'
      exact hapart (hplace.apart hplace' hid)
    · have := hlocals r hr hlies
      have := hparams q' hq' hlies'
      exact .inl (by omega)
    · have := hlocals r' hr' hlies'
      have := hparams q hq hlies
      exact .inr (by omega)
    · obtain ⟨t, _, n, m, ht, hle, hplace, hat⟩ := h.place_parameter hp hq
      obtain ⟨_, _, _, _, ht', hle', hplace', hat'⟩ := h.place_parameter hp hq'
      obtain ⟨rfl, rfl⟩ := h.unique hlies hat
      obtain ⟨rfl, rfl⟩ := h.unique hlies' hat'
      have := hplace.apart hplace' (by rwa [ht, ht'])
      omega

end Follows

end Procedure

/-! ## The Z80 -/

namespace Z80

def registerBytes (r : Register) : Checked Nat := Size.bytes <$> sizeOf r.type

def argumentBytes (q : Parameter) : Checked Nat := pushedBytes <$> sizeOf q.register.type

theorem size_of_argumentBytes (h : argumentBytes q = .ok n) :
    ∃ size, sizeOf q.register.type = .ok size ∧ n = pushedBytes size := by
  rw [argumentBytes] at h
  cases hsize : sizeOf q.register.type with
  | error => simp [hsize] at h
  | ok size => exact ⟨size, rfl, by simpa [hsize, eq_comm] using h⟩

variable {frame : Frame}

/-- The homes of the locals and of the parameters, for the bytes that each of them takes. -/
def homesFor (p : Procedure) (ms ns : List Nat) : Homes :=
  placeAll (·.id) (fun start size => .frame (-((start + size : Nat) : Int))) p.localRegisters ms 0
    (placeAll (·.register.id) (fun start _ => .frame start) p.parameters ns linkBytes [])

theorem placeParameters_eq (params : List Parameter) (base : Nat) (homes : Homes) :
    placeParameters params base homes = (do
      let ns ← params.mapM argumentBytes
      return (base + ns.sum, placeAll (·.register.id) (fun start _ => .frame start) params ns base homes)) :=
  eq_placeAll (fun _ _ => rfl) (fun q rest base homes => by
    rw [placeParameters, argumentBytes]
    cases sizeOf q.register.type <;> rfl) params base homes

theorem placeLocals_eq (locals : List Register) (base : Nat) (homes : Homes) :
    placeLocals locals base homes = (do
      let ms ← locals.mapM registerBytes
      return (base + ms.sum,
        placeAll (·.id) (fun start size => .frame (-((start + size : Nat) : Int))) locals ms base homes)) :=
  eq_placeAll (fun _ _ => rfl) (fun r rest base homes => by
    rw [placeLocals, registerBytes]
    cases sizeOf r.type <;> rfl) locals base homes

theorem exceeds_iff : (decide (128 < 0 + m) || decide (128 < linkBytes + n)) = true ↔ 128 < m ∨ 124 < n := by
  rw [Bool.or_eq_true, decide_eq_true_eq, decide_eq_true_eq, linkBytes]
  omega

theorem gives_frameOf : Gives (frameOf p) s frame s' ↔ s' = s ∧ ∃ ms ns, p.Measures registerBytes argumentBytes ms ns ∧
    ms.sum ≤ 128 ∧ ns.sum ≤ 124 ∧ frame = ⟨homesFor p ms ns, ms.sum⟩ := by
  simp only [frameOf, placeParameters_eq, placeLocals_eq, gives_bind, gives_check, bind_eq_ok]
  constructor
  · rintro ⟨_, _, ⟨⟨ns, hns, ⟨⟩⟩, rfl⟩, _, _, ⟨⟨ms, hms, ⟨⟩⟩, rfl⟩, h⟩
    rw [gives_unless, exceeds_iff, not_or, Nat.not_lt, Nat.not_lt, Nat.zero_add] at h
    exact ⟨h.2.2, ms, ns, ⟨hms, hns⟩, h.1.1, h.1.2, h.2.1⟩
  · rintro ⟨rfl, ms, ns, ⟨hms, hns⟩, hlocals, hargs, rfl⟩
    refine ⟨_, _, ⟨⟨ns, hns, rfl⟩, rfl⟩, _, _, ⟨⟨ms, hms, rfl⟩, rfl⟩, ?_⟩
    rw [gives_unless, exceeds_iff, Nat.zero_add]
    exact ⟨by omega, rfl, rfl⟩

theorem refuses_frameOf : Refuses (frameOf p) s ↔
    ∃ ms ns, p.Measures registerBytes argumentBytes ms ns ∧ (128 < ms.sum ∨ 124 < ns.sum) := by
  simp only [frameOf, placeParameters_eq, placeLocals_eq, refuses_check_bind, bind_eq_ok]
  constructor
  · rintro ⟨_, ⟨ns, hns, ⟨⟩⟩, _, ⟨ms, hms, ⟨⟩⟩, h⟩
    exact ⟨ms, ns, ⟨hms, hns⟩, exceeds_iff.mp (refuses_unless.mp h)⟩
  · rintro ⟨ms, ns, ⟨hms, hns⟩, hlarge⟩
    exact ⟨_, ⟨ns, hns, rfl⟩, _, ⟨ms, hms, rfl⟩, refuses_unless.mpr (exceeds_iff.mpr hlarge)⟩

/-- The register lies at a distance from `IX`, with so many bytes. -/
def Frame.Lies (frame : Frame) (r : Register) (offset : Int) (size : Nat) : Prop :=
  frame.homes.get? r.id = some (.frame offset) ∧ registerBytes r = .ok size

/-- Locals lie below `IX` and parameters above the link, all of them where a displacement of a signed byte reaches. -/
structure Frame.IsLaidOut (frame : Frame) (p : Procedure) : Prop where
  layout : p.IsLaidOut frame.Lies (-frame.size) 0 4 128
  size_le : frame.size ≤ 128
  reach : ∀ r ∈ p.registers, ∀ {offset size}, frame.Lies r offset size → ∀ k < size,
    ∃ displacement, Home.byte (.frame offset) k = .frame displacement ∧ -128 ≤ displacement ∧ displacement ≤ 127

theorem get?_homesFor (h : HasPlace (·.register.id) p.parameters ns q start n) :
    (homesFor p ms ns).get? q.register.id = some (.frame ↑(linkBytes + start)) := by
  rw [homesFor, get?_placeAll_of_ne fun r hr => Procedure.id_ne_of_mem hr h.mem]
  exact h.get? linkBytes []

theorem follows_homesFor (h : p.Measures registerBytes argumentBytes ms ns) :
    p.Follows (Frame.Lies ⟨homesFor p ms ns, ms.sum⟩) ms ns (fun start n => -((start + n : Nat) : Int)) 4 where
  lengths := ⟨(forall₂_of_mapM h.locals).length_eq, (forall₂_of_mapM h.arguments).length_eq⟩
  unique hlies hlies' :=
    ⟨Home.frame.inj (Option.some.inj (hlies.1.symm.trans hlies'.1)), Except.ok.inj (hlies.2.symm.trans hlies'.2)⟩
  locals hplace := ⟨by rw [homesFor, hplace.get?, Nat.zero_add], hplace.sized (forall₂_of_mapM h.locals)⟩
  parameters {q start n} hplace := by
    obtain ⟨size, hsize, rfl⟩ := size_of_argumentBytes (hplace.sized (forall₂_of_mapM h.arguments))
    exact ⟨size.bytes, by cases size <;> decide, get?_homesFor hplace, by simp [registerBytes, hsize]⟩

theorem isLaidOut_homesFor (h : p.Measures registerBytes argumentBytes ms ns) (hp : p.HasTable) (hlocals : ms.sum ≤ 128)
    (hargs : ns.sum ≤ 124) : Frame.IsLaidOut ⟨homesFor p ms ns, ms.sum⟩ p := by
  have hlayout : p.IsLaidOut (Frame.Lies ⟨homesFor p ms ns, ms.sum⟩) (-ms.sum) 0 4 128 :=
    (follows_homesFor h).isLaidOut hp (by omega) (by omega) (by omega) (by omega)
  refine ⟨hlayout, hlocals, fun r hr offset size hlies k hk => ⟨offset + k, rfl, ?_⟩⟩
  rcases hp.mem_cases hr with hr | ⟨q, hq, rfl⟩
  · have := hlayout.locals r hr hlies
    omega
  · have := hlayout.parameters q hq hlies
    omega

end Z80

/-! ## The 6502 -/

namespace Mos6502

variable {frame : Frame}

def argumentBytes (q : Parameter) : Checked Nat := sizeOf q.register

/-- The offsets of the locals and of the parameters, for the bytes that each of them takes. -/
def offsetsFor (p : Procedure) (ms ns : List Nat) : Offsets :=
  placeAll (·.register.id) (fun start _ => start) p.parameters ns (ms.sum + linkBytes)
    (placeAll (·.id) (fun start _ => start) p.localRegisters ms 0 [])

theorem place_locals (locals : List Register) (base : Nat) (offsets : Offsets) : place locals base offsets = (do
    let ms ← locals.mapM sizeOf
    return (base + ms.sum, placeAll (·.id) (fun start _ => start) locals ms base offsets)) :=
  eq_placeAll (fun _ _ => rfl) (fun _ _ _ _ => rfl) locals base offsets

theorem place_parameters (params : List Parameter) (base : Nat) (offsets : Offsets) :
    place (params.map (·.register)) base offsets = (do
      let ns ← params.mapM argumentBytes
      return (base + ns.sum, placeAll (·.register.id) (fun start _ => start) params ns base offsets)) :=
  eq_placeAll (f := fun params => place (params.map (·.register))) (fun _ _ => rfl) (fun _ _ _ _ => rfl)
    params base offsets

theorem gives_frameOf : Gives (frameOf p) s frame s' ↔ s' = s ∧ ∃ ms ns, p.Measures sizeOf argumentBytes ms ns ∧
    ms.sum + 2 + ns.sum ≤ 255 ∧ frame = ⟨offsetsFor p ms ns, ms.sum⟩ := by
  simp only [frameOf, place_parameters, place_locals p.localRegisters, gives_bind, gives_check, bind_eq_ok]
  constructor
  · rintro ⟨_, _, ⟨⟨ms, hms, ⟨⟩⟩, rfl⟩, _, _, ⟨⟨ns, hns, ⟨⟩⟩, rfl⟩, h⟩
    rw [gives_unless, Nat.zero_add, Nat.not_lt] at h
    exact ⟨h.2.2, ms, ns, ⟨hms, hns⟩, h.1, h.2.1⟩
  · rintro ⟨rfl, ms, ns, ⟨hms, hns⟩, hfits, rfl⟩
    refine ⟨_, _, ⟨⟨ms, hms, rfl⟩, rfl⟩, _, _, ⟨⟨ns, hns, rfl⟩, rfl⟩, ?_⟩
    rw [gives_unless, Nat.zero_add]
    exact ⟨Nat.not_lt.mpr hfits, rfl, rfl⟩

theorem refuses_frameOf : Refuses (frameOf p) s ↔
    ∃ ms ns, p.Measures sizeOf argumentBytes ms ns ∧ 255 < ms.sum + 2 + ns.sum := by
  simp only [frameOf, place_parameters, place_locals p.localRegisters, refuses_check_bind, bind_eq_ok]
  constructor
  · rintro ⟨_, ⟨ms, hms, ⟨⟩⟩, _, ⟨ns, hns, ⟨⟩⟩, h⟩
    rw [refuses_unless, Nat.zero_add] at h
    exact ⟨ms, ns, ⟨hms, hns⟩, h⟩
  · rintro ⟨ms, ns, ⟨hms, hns⟩, hlarge⟩
    refine ⟨_, ⟨ms, hms, rfl⟩, _, ⟨ns, hns, rfl⟩, ?_⟩
    rwa [refuses_unless, Nat.zero_add]

/-- The register lies at a distance from the base of the frame, with so many bytes. -/
def Frame.Lies (frame : Frame) (r : Register) (offset : Int) (size : Nat) : Prop :=
  ∃ n : Nat, offset = n ∧ frame.offsets.get? r.id = some n ∧ sizeOf r = .ok size

/-- The locals fill the frame from its base, the parameters lie behind the return address, the first right behind it,
and no byte is further away than the stack page is long. -/
structure Frame.IsLaidOut (frame : Frame) (p : Procedure) : Prop where
  layout : p.IsLaidOut frame.Lies 0 frame.size (frame.size + 2) 255
  filled : ∀ byte < frame.size, ∃ r ∈ p.localRegisters, ∃ offset size, frame.Lies r offset size ∧ offset ≤ byte ∧
    byte < offset + size
  first : ∀ q rest, p.parameters = q :: rest → (∀ q' ∈ rest, q'.register.id ≠ q.register.id) →
    ∃ size, frame.Lies q.register (frame.size + 2) size
  reach : ∀ r ∈ p.registers, ∀ {offset size}, frame.Lies r offset size → ∀ k < size, offset + k ≤ 254

theorem follows_offsetsFor (h : p.Measures sizeOf argumentBytes ms ns) :
    p.Follows (Frame.Lies ⟨offsetsFor p ms ns, ms.sum⟩) ms ns (fun start _ => start) (ms.sum + 2) where
  lengths := ⟨(forall₂_of_mapM h.locals).length_eq, (forall₂_of_mapM h.arguments).length_eq⟩
  unique := by
    rintro r _ _ _ _ ⟨n, rfl, hn, hsize⟩ ⟨_, rfl, hn', hsize'⟩
    exact ⟨congrArg _ (Option.some.inj (hn.symm.trans hn')), Except.ok.inj (hsize.symm.trans hsize')⟩
  locals {r start n} hplace := by
    refine ⟨start, rfl, ?_, hplace.sized (forall₂_of_mapM h.locals)⟩
    show (offsetsFor p ms ns).get? r.id = _
    rw [offsetsFor, get?_placeAll_of_ne fun q hq => (Procedure.id_ne_of_mem hplace.mem hq).symm, hplace.get?,
      Nat.zero_add]
  parameters {q start n} hplace :=
    ⟨n, Nat.le_refl n, ms.sum + linkBytes + start, rfl, hplace.get? _ _, hplace.sized (forall₂_of_mapM h.arguments)⟩

theorem isLaidOut_offsetsFor (h : p.Measures sizeOf argumentBytes ms ns) (hp : p.HasTable)
    (hfits : ms.sum + 2 + ns.sum ≤ 255) : Frame.IsLaidOut ⟨offsetsFor p ms ns, ms.sum⟩ p := by
  have hfollows := follows_offsetsFor h
  have hlayout : p.IsLaidOut (Frame.Lies ⟨offsetsFor p ms ns, ms.sum⟩) 0 ms.sum (ms.sum + 2) 255 :=
    hfollows.isLaidOut hp (by omega) (by omega) (by omega) (by omega)
  refine ⟨hlayout, fun byte hbyte => ?_, fun q rest hq hlater => ?_, fun r hr offset size hlies k hk => ?_⟩
  · have hdistinct : (p.localRegisters.map (·.id)).Nodup := hp.distinct.sublist (filter_sublist.map _)
    obtain ⟨r, start, n, hplace, hlow, hhigh⟩ := exists_hasPlace_of_lt hfollows.lengths.1 hdistinct hbyte
    exact ⟨r, hplace.mem, start, n, hfollows.locals hplace, by omega, by omega⟩
  · obtain ⟨n, hplace⟩ : ∃ n, HasPlace (·.register.id) p.parameters ns q (ns.take 0).sum n :=
      hasPlace_of_getElem? hfollows.lengths.2 (by rw [hq]; rfl) (by rw [hq]; exact hlater)
    obtain ⟨size, -, hlies⟩ := hfollows.parameters hplace
    exact ⟨size, by simpa using hlies⟩
  · rcases hp.mem_cases hr with hr | ⟨q, hq, rfl⟩
    · have := hlayout.locals r hr hlies
      omega
    · have := hlayout.parameters q hq hlies
      omega

end Mos6502

/-- Frames that fit are laid out without overlaps and within reach, and others are refused. -/
theorem frames_isLaidOut (p : Procedure) (hp : p.HasTable) (s : Session) :
    ((∀ {frame s'}, Gives (Z80.frameOf p) s frame s' → frame.IsLaidOut p) ∧
      ((∃ frame s', Gives (Z80.frameOf p) s frame s') ↔
        ∃ ms ns, p.Measures Z80.registerBytes Z80.argumentBytes ms ns ∧ ms.sum ≤ 128 ∧ ns.sum ≤ 124) ∧
      (Refuses (Z80.frameOf p) s ↔
        ∃ ms ns, p.Measures Z80.registerBytes Z80.argumentBytes ms ns ∧ (128 < ms.sum ∨ 124 < ns.sum))) ∧
    (∀ {frame s'}, Gives (Mos6502.frameOf p) s frame s' → frame.IsLaidOut p) ∧
      ((∃ frame s', Gives (Mos6502.frameOf p) s frame s') ↔
        ∃ ms ns, p.Measures Mos6502.sizeOf Mos6502.argumentBytes ms ns ∧ ms.sum + 2 + ns.sum ≤ 255) ∧
      (Refuses (Mos6502.frameOf p) s ↔
        ∃ ms ns, p.Measures Mos6502.sizeOf Mos6502.argumentBytes ms ns ∧ 255 < ms.sum + 2 + ns.sum) := by
  refine ⟨⟨fun h => ?_, ?_, Z80.refuses_frameOf⟩, fun h => ?_, ?_, Mos6502.refuses_frameOf⟩
  · obtain ⟨-, _, _, hsizes, hlocals, harguments, rfl⟩ := Z80.gives_frameOf.mp h
    exact Z80.isLaidOut_homesFor hsizes hp hlocals harguments
  · simp only [Z80.gives_frameOf]
    constructor
    · rintro ⟨_, _, _, ms, ns, hsizes, hlocals, harguments, -⟩
      exact ⟨ms, ns, hsizes, hlocals, harguments⟩
    · rintro ⟨ms, ns, hsizes, hlocals, harguments⟩
      exact ⟨_, s, rfl, ms, ns, hsizes, hlocals, harguments, rfl⟩
  · obtain ⟨-, _, _, hsizes, hfits, rfl⟩ := Mos6502.gives_frameOf.mp h
    exact Mos6502.isLaidOut_offsetsFor hsizes hp hfits
  · simp only [Mos6502.gives_frameOf]
    constructor
    · rintro ⟨_, _, _, ms, ns, hsizes, hfits, -⟩
      exact ⟨ms, ns, hsizes, hfits⟩
    · rintro ⟨ms, ns, hsizes, hfits⟩
      exact ⟨_, s, rfl, ms, ns, hsizes, hfits, rfl⟩

/-- A procedure with two parameters and locals of all sizes. -/
def framed : Procedure :=
  ⟨⟨"M", "framed", []⟩, [⟨"a", ⟨1, .u8⟩⟩, ⟨"b", ⟨2, .i24⟩⟩], .void, [],
    [⟨1, .u8⟩, ⟨2, .i24⟩, ⟨3, .u16⟩, ⟨4, .boolean⟩, ⟨5, .fixed .f8x16⟩], [], false, false, .standard⟩

theorem framed_isLaidOut : framed.HasTable ∧
    (∃ frame s', Gives (Z80.frameOf framed) ⟨0, []⟩ frame s' ∧ frame.IsLaidOut framed) ∧
    ∃ frame s', Gives (Mos6502.frameOf framed) ⟨0, []⟩ frame s' ∧ frame.IsLaidOut framed := by
  have hp : framed.HasTable := ⟨by decide, by decide⟩
  obtain ⟨⟨hlaid, hgives, -⟩, hlaid', hgives', -⟩ := frames_isLaidOut framed hp ⟨0, []⟩
  obtain ⟨frame, s', h⟩ := hgives.mpr ⟨[2, 1, 4], [2, 4], ⟨by decide, by decide⟩, by decide, by decide⟩
  obtain ⟨frame', t', h'⟩ := hgives'.mpr ⟨[2, 1, 4], [1, 4], ⟨by decide, by decide⟩, by decide⟩
  exact ⟨hp, ⟨frame, s', h, hlaid h⟩, frame', t', h', hlaid' h'⟩

end Retarget
