import Retarget.Proofs.Emit.Frames
import Retarget.Proofs.Emit.Mos6502.Machine
import Retarget.Proofs.Number.Whole

/-!
# Arguments on the stack of the 6502

The caller pushes its arguments from the last to the first and each from its highest byte down, and the callee
counts its parameters upwards from the end of its locals. The frame gives a parameter the distance of its bytes
among all that were pushed.
-/
namespace Retarget.Mos6502

open BitVec Checked Emit List Number

variable (labels : String → Word) {s s' : Session}

/-! ## Frames -/

section Frames

/-- All registers lie below a distance from the base of the frame. -/
def Offsets.Below (offsets : Offsets) (bound : Nat) : Prop := ∀ id found, offsets.get? id = some found → found ≤ bound

/-- Bytes of a whole frame: the locals, the return address and the arguments. -/
def extent (p : Procedure) : Checked Nat := do
  let (size, offsets) ← place p.localRegisters 0 []
  let (total, _) ← place (p.parameters.map (·.register)) (size + linkBytes) offsets
  return total

/-- What a frame that fits looks like: its extent, and where the parameters are. -/
structure Frame.IsOf (frame : Frame) (p : Procedure) (sizes : List Nat) : Prop where
  extent_eq : extent p = .ok (frame.size + linkBytes + sizes.sum)
  extent_le : frame.size + linkBytes + sizes.sum ≤ 255
  below : frame.offsets.Below (frame.size + linkBytes + sizes.sum)
  sizeOf_parameter : List.Forall₂ (fun r size => sizeOf r = .ok size) (p.parameters.map (·.register)) sizes
  offset : ∀ i q, p.parameters[i]? = some q → (∀ r ∈ p.parameters.drop (i + 1), r.register.id ≠ q.register.id) →
    frame.offsets.get? q.register.id = some (frame.size + linkBytes + (sizes.take i).sum)

theorem Frame.isOf (h : Gives (frameOf p) s frame s') : ∃ sizes, frame.IsOf p sizes := by
  obtain ⟨-, _, ns, ⟨hms, hns⟩, hfits, rfl⟩ := gives_frameOf.mp h
  have hlength := (forall₂_of_mapM hms).length_eq
  have hlength' := (forall₂_of_mapM hns).length_eq
  refine ⟨ns, ?_, hfits, fun id found hfound => ?_, ?_, fun i q hq hlater => ?_⟩
  · simp only [extent, place_parameters, place_locals p.localRegisters, hms, hns, bind, Except.bind, pure, Except.pure,
      Nat.zero_add]
  · rcases get?_placeAll_cases hlength' hfound with ⟨q, start, n, hplace, rfl⟩ | hfound
    · have := hplace.le_sum
      simp only
      omega
    · rcases get?_placeAll_cases hlength hfound with ⟨r, _, n, hplace, rfl⟩ | hfound
      · have := hplace.le_sum
        simp only
        omega
      · simp at hfound
  · exact forall₂_map_left_iff.mpr (forall₂_of_mapM hns)
  · obtain ⟨n, hplace⟩ := hasPlace_of_getElem? hlength' hq hlater
    exact hplace.get? _ _

theorem eq_of_frameOf (h : Gives (frameOf p) s frame s') (h' : Gives (frameOf p) t frame' t') : frame = frame' := by
  obtain ⟨-, _, _, hsizes, -, rfl⟩ := gives_frameOf.mp h
  obtain ⟨-, _, _, hsizes', -, rfl⟩ := gives_frameOf.mp h'
  obtain ⟨rfl, rfl⟩ := hsizes.unique hsizes'
  rfl

end Frames

/-! ## Pushes -/

section Pushes

variable {m m' : Machine}

/-- The bytes of a register that lies in the frame. -/
def Machine.bytesAt (m : Machine) (offset count : Nat) : List Byte :=
  (List.range count).map fun k => m.memory (m.slotAddress (offset + k))

/-- The bytes of several, one after the other. -/
def Machine.bytesOf (m : Machine) (places : List (Nat × Nat)) : List Byte :=
  (places.map fun place => m.bytesAt place.1 place.2).flatten

/-- The frame lies some bytes above the last one pushed. -/
def Machine.Above (m : Machine) (distance : Nat) : Prop := m.x.toNat = m.sp.toNat + distance

theorem Machine.Above.slotAddress (h : m.Above distance) (offset : Nat) :
    m.slotAddress offset = m.stack.top + BitVec.ofNat 16 (distance + offset) := by
  have hx : m.x.setWidth 16 = m.sp.setWidth 16 + BitVec.ofNat 16 distance := by
    rw [Above] at h
    bv_omega
  rw [Machine.slotAddress, Machine.stack, hx, ofNat_add, ofNat_add]
  bv_omega

theorem Machine.Above.bytesAt_load {distance bytes} (h : m.Above distance) (hx : m'.x = m.x)
    (hstack : m'.stack = m.stack.load bytes) {offset count} (hfits : distance + offset + count + bytes.length < 65536) :
    m'.bytesAt offset count = m.bytesAt offset count := by
  refine map_congr_left fun k hk => ?_
  have hmemory : m'.memory = (m.stack.load bytes).memory := congrArg Stack.memory hstack
  have haddr : m'.slotAddress (offset + k) = m.slotAddress (offset + k) := by
    rw [Machine.slotAddress, Machine.slotAddress, hx]
  rw [mem_range] at hk
  rw [haddr, hmemory, h.slotAddress]
  exact m.stack.memory_load_above bytes (by omega)

/-- The bytes of a register are pushed from the highest down, so that they lie in order. -/
theorem run_pushBytes {distance} (offset size : Nat) (h : m.Above distance) (hroom : size ≤ m.sp.toNat)
    (hfits : distance + offset + 2 * size < 65536) :
    ∃ m', run labels (pushBytes (fun i => .slot (offset + i)) size) m = some m' ∧ m'.x = m.x ∧
      m'.sp.toNat + size = m.sp.toNat ∧ m'.stack = m.stack.load (m.bytesAt offset size) := by
  induction size generalizing m distance with
  | zero => exact ⟨m, rfl, rfl, rfl, rfl⟩
  | succ size ih =>
    let first := (m.setA (m.memory (m.slotAddress (offset + size)))).pushByte (m.memory (m.slotAddress (offset + size)))
    have hstack : first.stack = m.stack.load [m.memory (m.slotAddress (offset + size))] :=
      Machine.stack_pushByte (m := m.setA _) (by show 0 < m.sp.toNat; omega) _
    have hsp : first.sp.toNat + 1 = m.sp.toNat := by
      show (m.sp - 1).toNat + 1 = m.sp.toNat
      bv_omega
    have habove : first.Above (distance + 1) := by
      show m.x.toNat = first.sp.toNat + (distance + 1)
      have : m.x.toNat = m.sp.toNat + distance := h
      omega
    obtain ⟨m', hrun, hx, hsp', hstack'⟩ := ih habove (by omega) (by omega)
    refine ⟨m', ?_, hx, by omega, ?_⟩
    · rw [pushBytes, range_succ, List.reverse_append, reverse_singleton, flatMap_append]
      exact hrun
    · rw [hstack', hstack,
        h.bytesAt_load (show first.x = m.x from rfl) hstack (by simp only [length_singleton]; omega),
        ← Stack.load_append,
        Machine.bytesAt, Machine.bytesAt, range_succ, map_append, map_singleton]

/-- Arguments that are pushed from the last to the first lie in order from the top. -/
theorem run_pushes {args : List (Nat × Nat)} {distance} (bound : Nat) (h : m.Above distance)
    (hbound : ∀ arg ∈ args, arg.1 ≤ bound) (hroom : (args.map Prod.snd).sum ≤ m.sp.toNat)
    (hfits : distance + bound + 3 * (args.map Prod.snd).sum < 65536) :
    ∃ m', run labels (args.reverse.flatMap fun arg => pushBytes (fun i => .slot (arg.1 + i)) arg.2) m =
        some m' ∧ m'.x = m.x ∧ m'.sp.toNat + (args.map Prod.snd).sum = m.sp.toNat ∧
      m'.stack = m.stack.load (m.bytesOf args) := by
  induction args with
  | nil => exact ⟨m, rfl, rfl, rfl, rfl⟩
  | cons arg rest ih =>
    obtain ⟨offset, size⟩ := arg
    rw [map_cons, sum_cons] at hroom hfits ⊢
    obtain ⟨m₁, hrun, hx, hsp, hstack⟩ := ih (fun arg harg => hbound arg (mem_cons_of_mem _ harg))
      (by omega) (by omega)
    have hoffset : offset ≤ bound := hbound (offset, size) mem_cons_self
    have habove : m₁.Above (distance + (rest.map Prod.snd).sum) := by
      have : m.x.toNat = m.sp.toNat + distance := h
      rw [Machine.Above, hx]
      omega
    obtain ⟨m₂, hrun₂, hx₂, hsp₂, hstack₂⟩ := run_pushBytes labels offset size habove (by omega) (by omega)
    have hlen : (m.bytesOf rest).length = (rest.map Prod.snd).sum := by
      simp [Machine.bytesOf, Machine.bytesAt, Function.comp_def]
    refine ⟨m₂, ?_, hx₂.trans hx, by omega, ?_⟩
    · rw [reverse_cons, flatMap_append, run_append_of labels hrun]
      simpa using hrun₂
    · rw [hstack₂, hstack, h.bytesAt_load hx hstack (by omega), ← Stack.load_append]
      rfl

/-- Registers lie in the frame at these places, and have these sizes. -/
def Offsets.Lie (offsets : Offsets) : List Register → List (Nat × Nat) → Prop :=
  List.Forall₂ fun r place => offsets.get? r.id = some place.1 ∧ sizeOf r = .ok place.2

/-- The code that pushes arguments, of which the last comes to lie first. -/
theorem of_pushArguments {ctx args pushes count} (h : Gives (pushArguments ctx args) s (pushes, count) s') :
    ∃ places, ctx.offsets.Lie args.reverse places ∧
      pushes = places.reverse.flatMap (fun place => pushBytes (fun i => .slot (place.1 + i)) place.2) ∧
      count = (places.map Prod.snd).sum := by
  induction args generalizing s pushes count with
  | nil =>
    obtain ⟨⟨rfl, rfl⟩, rfl⟩ : (pushes = [] ∧ count = 0) ∧ s' = s := by simpa [pushArguments] using h
    exact ⟨[], .nil, rfl, rfl⟩
  | cons r _ ih =>
    simp only [pushArguments, slotOf, sizeOfRegister, gives_bind, gives_check, gives_pure] at h
    obtain ⟨size, _, ⟨hsize, rfl⟩, _, _, hbytes, ⟨_, _⟩, _, hrest, heq, rfl⟩ := h
    obtain ⟨rfl, rfl⟩ := Prod.mk.inj heq
    obtain ⟨places, hplaces, rfl, rfl⟩ := ih hrest
    split at hbytes
    next offset hfound =>
      obtain ⟨rfl, rfl⟩ := gives_pure.mp hbytes
      refine ⟨places ++ [(offset, size)], ?_, by simp, by simp [Nat.add_comm]⟩
      rw [reverse_cons]
      exact rel_append hplaces (.cons ⟨hfound, hsize⟩ .nil)
    · simp at hbytes

end Pushes

/-! ## Code around the callee -/

/-- Code that runs through, moves the stack pointer up by some bytes and leaves it in `X`. -/
def Raises (lines : Code) (bytes : Nat) : Prop :=
  ∀ m : Machine, ∃ m', run labels lines m = some m' ∧ m'.sp = m.sp + BitVec.ofNat 8 bytes ∧ m'.x = m'.sp

theorem raises_release (bytes : Nat) : Raises labels (release bytes) bytes := by
  intro m
  unfold release
  split
  next h =>
    subst h
    exact ⟨_, rfl, (BitVec.add_zero m.sp).symm, rfl⟩
  next h =>
    refine ⟨_, rfl, ?_, rfl⟩
    show BitVec.ofNat 8 (m.sp.toNat + ((ofNat bytes).word 8).toNat + 0) = m.sp + BitVec.ofNat 8 bytes
    rw [word_ofNat]
    bv_omega

/-- Copying bytes leaves the stack pointer and `X` alone. -/
theorem run_copyBytes (htarget : ∀ i m, ((target i).address? labels m).isSome = true) (count : Nat)
    (m : Machine) : ∃ m', run labels (copyBytes source target count) m = some m' ∧ m'.sp = m.sp ∧ m'.x = m.x := by
  induction count with
  | zero => exact ⟨m, rfl, rfl, rfl⟩
  | succ count ih =>
    obtain ⟨m₁, hrun, hsp, hx⟩ := ih
    obtain ⟨addr, haddr⟩ := Option.isSome_iff_exists.mp (htarget count (m₁.setA ((source count).value labels m₁)))
    refine ⟨(m₁.setA ((source count).value labels m₁)).write addr ((source count).value labels m₁), ?_, hsp, hx⟩
    rw [copyBytes, range_succ, flatMap_append]
    refine (run_append_of labels hrun).trans ?_
    simp [run, code, Line.plain, Line.exec?, exec, haddr]
    rfl

/-- After the start of a procedure `X` holds the stack pointer, which has moved down by the locals. -/
theorem run_reserve (size : Nat) (m : Machine) :
    ∃ m', run labels (reserve size) m = some m' ∧ m'.memory = m.memory ∧ m'.sp = m.sp - BitVec.ofNat 8 size ∧
      m'.x = m'.sp := by
  unfold reserve
  split
  next h =>
    subst h
    exact ⟨_, rfl, rfl, (BitVec.sub_zero m.sp).symm, rfl⟩
  next h =>
    refine ⟨_, rfl, rfl, ?_, rfl⟩
    show m.sp - BitVec.ofNat 8 (((ofNat size).word 8).toNat + 0) = m.sp - BitVec.ofNat 8 size
    rw [word_ofNat]
    bv_omega

/-! ## Calls -/

/-- A call of a procedure whose arguments have the types of its parameters, with the frames of both sides, the code
of the call and the code of the procedure. -/
structure Call where
  program : Program
  caller : Procedure
  callee : Procedure
  symbol : Symbol
  arguments : List Register
  destination : Option Register
  /-- The caller's symbol as text, and its exit. -/
  name : String
  exit : String
  frame : Frame
  calleeFrame : Frame
  lines : Code
  entry : Code
  calls : program.find? symbol = some callee
  sameTypes : arguments.map (·.type) = callee.parameters.map (·.register.type)
  fits : ∃ s s', Gives (frameOf caller) s frame s'
  callee_fits : ∃ s s', Gives (frameOf callee) s calleeFrame s'
  lines_emitted : ∃ s s',
    Gives (Mos6502.call ⟨program, name, frame.offsets, exit⟩ (.function symbol) arguments destination) s lines s'
  entry_emitted : ∃ s s', Gives (procedureCode program callee) s entry s'

namespace Call

variable (call : Call)

/-- The caller is between two of its instructions, with its frame at `X`, and the frame of the callee fits in what is
left of the stack page. -/
def IsAtRest (m : Machine) : Prop := m.x = m.sp ∧ ∃ total, extent call.callee = .ok total ∧ total ≤ m.sp.toNat

/-- Every byte of an argument is where the callee looks for the byte of its parameter, unless a later parameter has
taken the register of that one. -/
def Hands (m m' : Machine) : Prop :=
  ∀ i p argument, call.callee.parameters[i]? = some p → call.arguments[i]? = some argument →
    (∀ q ∈ call.callee.parameters.drop (i + 1), q.register.id ≠ p.register.id) →
    ∃ size offset source, sizeOf p.register = .ok size ∧ call.calleeFrame.offsets.get? p.register.id = some offset ∧
      call.frame.offsets.get? argument.id = some source ∧
      ∀ k < size, m'.memory (m'.slotAddress (offset + k)) = m.memory (m.slotAddress (source + k))

/-- The pushes, the return address and the start of the callee put the arguments where the callee has its parameters,
and the code behind the call takes off what was pushed. -/
def Agrees (m : Machine) (returnAddress : Word) : Prop :=
  ∃ name pushes behind body m₁ m₂ pushed,
    call.lines = pushes ++ code [.call name] ++ behind ∧
    call.entry = [.label name] ++ reserve call.calleeFrame.size ++ body ∧
    run labels pushes m = some m₁ ∧
    run labels (reserve call.calleeFrame.size) (m₁.pushWord returnAddress) = some m₂ ∧
    m₂.x = m₂.sp ∧ call.Hands m m₂ ∧
    m₁.sp.toNat + pushed = m.sp.toNat ∧ Raises labels behind pushed

theorem run_copyIn {ctx r lines s s'} (h : Gives (copyIn ctx resultArea r) s lines s') (m : Machine) :
    ∃ m', run labels lines m = some m' ∧ m'.sp = m.sp ∧ m'.x = m.x := by
  simp only [copyIn, slotOf, gives_bind, gives_pure] at h
  obtain ⟨size, _, -, _, _, -, _, _, htarget, rfl, -⟩ := h
  split at htarget
  next offset _ =>
    obtain ⟨rfl, -⟩ := gives_pure.mp htarget
    exact run_copyBytes labels (fun _ _ => rfl) size m
  · simp at htarget

/-- The code of the call: the pushes, the call, and what takes the arguments off and stores the result. -/
theorem exists_lines : ∃ name s s' pushes count result, call.callee.symbol.text = .ok name ∧
    Gives (pushArguments ⟨call.program, call.name, call.frame.offsets, call.exit⟩ call.arguments.reverse) s
      (pushes, count) s' ∧ (∀ m, ∃ m', run labels result m = some m' ∧ m'.sp = m.sp ∧ m'.x = m.x) ∧
    call.lines = pushes ++ code [.call name] ++ release count ++ result := by
  obtain ⟨s, _, h⟩ := call.lines_emitted
  cases hdest : call.destination with
  | none =>
    simp only [Mos6502.call, callFunction, call.calls, hdest, pure_bind, gives_bind, gives_check] at h
    obtain ⟨⟨pushes, count⟩, _, hpushes, name, _, ⟨hname, rfl⟩, h⟩ := h
    exact ⟨name, _, _, pushes, count, [], hname, hpushes, fun m => ⟨m, rfl, rfl, rfl⟩, (gives_pure.mp h).1⟩
  | some =>
    simp only [Mos6502.call, callFunction, call.calls, hdest, gives_bind, gives_check] at h
    obtain ⟨result, _, hresult, ⟨pushes, count⟩, _, hpushes, name, _, ⟨hname, rfl⟩, h⟩ := h
    exact ⟨name, _, _, pushes, count, result, hname, hpushes, run_copyIn labels hresult, (gives_pure.mp h).1⟩

/-- The code of the callee starts with the frame that it was given. -/
theorem exists_entry {name} (hname : call.callee.symbol.text = .ok name) :
    ∃ body, call.entry = [.label name] ++ reserve call.calleeFrame.size ++ body := by
  obtain ⟨s, _, h⟩ := call.entry_emitted
  obtain ⟨t, _, hfits⟩ := call.callee_fits
  simp only [procedureCode, hname, gives_bind, gives_check] at h
  obtain ⟨_, _, ⟨hsame, rfl⟩, _, _, hframe, body, _, _, h⟩ := h
  obtain rfl := Except.ok.inj hsame
  obtain rfl := eq_of_frameOf hfits hframe
  refine ⟨body ++ [.label s!"{name}_epilogue"] ++ release call.calleeFrame.size ++ code [.ret], ?_⟩
  rw [(gives_pure.mp h).1]
  simp only [List.append_assoc]

theorem sizes_eq (hplaces : call.frame.offsets.Lie call.arguments places)
    (hsizes : Forall₂ (fun r size => sizeOf r = .ok size) (call.callee.parameters.map (·.register)) sizes) :
    places.map Prod.snd = sizes := by
  have hsame := congrArg (map fun type => sizeOf ⟨0, type⟩) call.sameTypes
  rw [map_map, map_map] at hsame
  exact eq_of_forall₂ hsame (forall₂_map_right_iff.mpr (hplaces.imp fun _ _ h => h.2))
    (forall₂_map_left_iff.mp hsizes)

/-- Behind the link lie the bytes of the arguments, each as far from the locals as the frame says. -/
theorem hands_of_load {m m' : Machine} {link} (hcallee : call.calleeFrame.IsOf call.callee sizes)
    (hplaces : call.frame.offsets.Lie call.arguments places) (hlink : link.length = linkBytes)
    (hstack : stack = m.stack.load (link ++ m.bytesOf places)) (hmemory : m'.memory = stack.memory)
    (htop : ∀ distance, m'.slotAddress (call.calleeFrame.size + distance) = stack.top + BitVec.ofNat 16 distance) :
    call.Hands m m' := by
  subst hstack
  intro i p arg hp harg hlater
  obtain rfl := call.sizes_eq hplaces hcallee.sizeOf_parameter
  obtain ⟨⟨source, size⟩, hplace, hsource, hsize⟩ := exists_getElem?_of_forall₂ hplaces harg
  have htype : arg.type = p.register.type := by
    have h := congrArg (·[i]?) call.sameTypes
    simpa [hp, harg] using h
  refine ⟨size, _, source, ?_, hcallee.offset i p hp hlater, hsource, fun k hk => ?_⟩
  · rw [← hsize, sizeOf, sizeOf, htype]
  have hlengths : (places.map fun place => m.bytesAt place.1 place.2).map length = places.map Prod.snd := by
    simp [Machine.bytesAt, Function.comp_def]
  have hfound : (link ++ m.bytesOf places)[linkBytes + ((places.map Prod.snd).take i).sum + k]? =
      some (m.memory (m.slotAddress (source + k))) := by
    rw [getElem?_append_right (by omega), hlink, Nat.add_assoc, Nat.add_sub_cancel_left, ← hlengths, ← map_take]
    refine getElem?_flatten (l := m.bytesAt source size) (by simp [hplace]) ?_
    simp [Machine.bytesAt, getElem?_range hk]
  have hlen : (link ++ m.bytesOf places).length < 65536 := by
    have hextent := hcallee.extent_le
    rw [length_append, hlink, Machine.bytesOf, length_flatten, hlengths]
    omega
  rw [Nat.add_assoc, Nat.add_assoc, ← Nat.add_assoc linkBytes, htop, hmemory]
  exact m.stack.memory_load hlen hfound

theorem agrees {m : Machine} (h : call.IsAtRest m) (returnAddress : Word) : call.Agrees labels m returnAddress := by
  obtain ⟨name, s, _, _, _, result, hname, hpushes, hresult, hlines⟩ := call.exists_lines labels
  obtain ⟨body, hentry⟩ := call.exists_entry hname
  obtain ⟨_, _, hframe⟩ := call.fits
  obtain ⟨_, hcaller⟩ := Frame.isOf hframe
  obtain ⟨_, _, hframe'⟩ := call.callee_fits
  obtain ⟨_, hcallee⟩ := Frame.isOf hframe'
  obtain ⟨places, hplaces, rfl, rfl⟩ := of_pushArguments hpushes
  rw [reverse_reverse] at hplaces
  obtain rfl := call.sizes_eq hplaces hcallee.sizeOf_parameter
  have hextent := hcallee.extent_le
  have hroom : call.calleeFrame.size + linkBytes + (places.map Prod.snd).sum ≤ m.sp.toNat := by
    obtain ⟨-, _, htotal, hle⟩ := h
    rw [hcallee.extent_eq] at htotal
    obtain rfl := Except.ok.inj htotal
    exact hle
  have habove : m.Above 0 := by rw [Machine.Above, h.1, Nat.add_zero]
  rw [linkBytes] at hextent hroom
  obtain ⟨m₁, hrun, hx, hsp, hstack⟩ := run_pushes labels 255 habove (fun place hplace => by
    obtain ⟨r, -, hfound, -⟩ := exists_origin hplaces hplace
    exact Nat.le_trans (hcaller.below _ _ hfound) hcaller.extent_le) (by omega) (by omega)
  obtain ⟨hlinked, hsp'⟩ := Machine.stack_pushWord (m := m₁) (by omega) returnAddress
  obtain ⟨m₂, hentered, hmemory, hsp₂, hx₂⟩ := run_reserve labels call.calleeFrame.size (m₁.pushWord returnAddress)
  rw [hstack, ← Stack.load_append] at hlinked
  refine ⟨name, _, release (places.map Prod.snd).sum ++ result, body, m₁, m₂, (places.map Prod.snd).sum,
    by rw [hlines, List.append_assoc], hentry, hrun, hentered, hx₂, ?_, hsp, ?_⟩
  · refine call.hands_of_load hcallee hplaces rfl hlinked hmemory fun distance => ?_
    -- the locals lie between the base of the frame and the return address
    have hx₂' : m₂.x.toNat + call.calleeFrame.size = (m₁.pushWord returnAddress).sp.toNat := by
      rw [hx₂, hsp₂]
      bv_omega
    rw [Machine.slotAddress, Machine.stack, ← Nat.add_assoc, ofNat_add, ofNat_add]
    bv_omega
  · intro t
    obtain ⟨t₁, hrelease, hsp₁, hx₁⟩ := raises_release labels (places.map Prod.snd).sum t
    obtain ⟨t₂, hstore, hsp₂, hx₂⟩ := hresult t₁
    exact ⟨t₂, (run_append_of labels hrelease).trans hstore, hsp₂.trans hsp₁, by rw [hx₂, hx₁, hsp₂]⟩

end Call

end Retarget.Mos6502
