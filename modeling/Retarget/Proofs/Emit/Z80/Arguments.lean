import Retarget.Proofs.Emit.Frames
import Retarget.Proofs.Emit.Z80.Machine
import Retarget.Proofs.Number.Whole

/-!
# Arguments on the stack of the Z80

The caller pushes its arguments from the last to the first, and the callee counts its parameters upwards from
`IX`. What is pushed is a list of blocks, one for every argument, that lie in the order of the arguments; the
frame gives a parameter the distance of its block.
-/
namespace Retarget.Z80

open Assoc BitVec Checked Emit List Number

variable (labels : String → Word) {s s' : Session}

/-! ## Frames -/

section Frames

/-- All homes lie in the frame, between two distances from `IX`. -/
def Homes.Within (homes : Homes) (low high : Int) : Prop :=
  ∀ id home, homes.get? id = some home → ∃ offset, home = .frame offset ∧ low ≤ offset ∧ offset ≤ high

/-- What a frame that fits looks like: its extent, and where the parameters are. -/
structure Frame.IsOf (frame : Frame) (p : Procedure) (sizes : List Size) : Prop where
  size_le : frame.size ≤ 128
  within : frame.homes.Within (-frame.size) 128
  sizeOf_parameter : List.Forall₂ (fun q size => sizeOf q.register.type = .ok size) p.parameters sizes
  sum_le : (sizes.map pushedBytes).sum ≤ 124
  home : ∀ i q, p.parameters[i]? = some q → (∀ r ∈ p.parameters.drop (i + 1), r.register.id ≠ q.register.id) →
    frame.homes.get? q.register.id = some (.frame ↑(linkBytes + ((sizes.take i).map pushedBytes).sum))

theorem exists_sizes (h : Forall₂ (fun q n => argumentBytes q = .ok n) params ns) :
    ∃ sizes, Forall₂ (fun q size => sizeOf q.register.type = .ok size) params sizes ∧ ns = sizes.map pushedBytes := by
  induction h with
  | nil => exact ⟨[], .nil, rfl⟩
  | cons hn _ ih =>
    obtain ⟨sizes, hsizes, rfl⟩ := ih
    obtain ⟨size, hsize, rfl⟩ := size_of_argumentBytes hn
    exact ⟨size :: sizes, .cons hsize hsizes, rfl⟩

theorem Frame.isOf (h : Gives (frameOf p) s frame s') : ∃ sizes, frame.IsOf p sizes := by
  obtain ⟨-, _, _, ⟨hms, hns⟩, hlocals, harguments, rfl⟩ := gives_frameOf.mp h
  have hlength := (forall₂_of_mapM hms).length_eq
  have hlength' := (forall₂_of_mapM hns).length_eq
  obtain ⟨sizes, hsizes, rfl⟩ := exists_sizes (forall₂_of_mapM hns)
  refine ⟨sizes, hlocals, fun id home hhome => ?_, hsizes, harguments, fun i q hq hlater => ?_⟩
  · rcases get?_placeAll_cases hlength hhome with ⟨r, start, n, hplace, rfl⟩ | hhome
    · have := hplace.le_sum
      exact ⟨_, rfl, by simp only; omega, by omega⟩
    · rcases get?_placeAll_cases hlength' hhome with ⟨q, _, n, hplace, rfl⟩ | hhome
      · have := hplace.le_sum
        exact ⟨_, rfl, by omega, by rw [linkBytes]; omega⟩
      · simp at hhome
  · obtain ⟨n, hplace⟩ := hasPlace_of_getElem? hlength' hq hlater
    rw [map_take]
    exact get?_homesFor hplace

theorem eq_of_frameOf (h : Gives (frameOf p) s frame s') (h' : Gives (frameOf p) t frame' t') : frame = frame' := by
  obtain ⟨-, _, _, hsizes, -, -, rfl⟩ := gives_frameOf.mp h
  obtain ⟨-, _, _, hsizes', -, -, rfl⟩ := gives_frameOf.mp h'
  obtain ⟨rfl, rfl⟩ := hsizes.unique hsizes'
  rfl

end Frames

/-! ## Pushes -/

section Pushes

variable {m m' : Machine} {offset : Int}

/-- Pushing a word of the frame through `HL`. -/
theorem run_pushWord (m : Machine) (offset : Int) (i : Nat) :
    ∃ m', run labels (loadHL (.frame offset) i ++ code [.push .hl]) m = some m' ∧ m'.ix = m.ix ∧
      m'.stack = m.stack.load [m.memory (m.ix + BitVec.ofInt 16 (offset + i)),
        m.memory (m.ix + BitVec.ofInt 16 (offset + (i + 1 : Nat)))] := by
  refine ⟨_, rfl, rfl, ?_⟩
  simp [Machine.pushWord, Machine.setPair, Machine.pair, Machine.setHalf, Home.byte, Place.address]
  rfl

/-- A byte of the frame that lies some bytes above the last one pushed. -/
def Machine.Above (m : Machine) (offset : Int) (distance : Nat) : Prop :=
  m.ix + BitVec.ofInt 16 offset = m.sp + BitVec.ofNat 16 distance

theorem Machine.Above.byte (h : m.Above offset distance) (k : Nat) :
    m.ix + BitVec.ofInt 16 (offset + k) = m.sp + BitVec.ofNat 16 (distance + k) := by
  rw [ofInt_add, ofInt_natCast, ofNat_add, ← BitVec.add_assoc, ← BitVec.add_assoc, h]

theorem Machine.Above.memory_load (h : m.Above offset distance)
    (hstack : m'.stack = m.stack.load bytes) (hfits : distance + k + bytes.length < 65536) :
    m'.memory (m.ix + BitVec.ofInt 16 (offset + k)) = m.memory (m.ix + BitVec.ofInt 16 (offset + k)) := by
  have hmemory : m'.memory = (m.stack.load bytes).memory := congrArg Stack.memory hstack
  rw [hmemory, h.byte k]
  exact m.stack.memory_load_above bytes hfits

/-- What is pushed for an argument that lies in the frame: its bytes in order, with one more behind a single byte. -/
theorem run_pushFrom (size : Size) (h : m.Above offset distance) (hfits : distance + 8 < 65536) :
    ∃ m' bytes, run labels (pushFrom (.frame offset) size) m = some m' ∧ m'.ix = m.ix ∧
      m'.stack = m.stack.load bytes ∧ bytes.length = pushedBytes size ∧
      ∀ k < size.bytes, bytes[k]? = some (m.memory (m.ix + BitVec.ofInt 16 (offset + k))) := by
  cases size with
  | one =>
    refine ⟨_, [m.memory (m.ix + BitVec.ofInt 16 (offset + (0 : Nat))), m.half .h], rfl, rfl, ?_, rfl, ?_⟩
    · simp [Machine.pair, Machine.setHalf, Home.byte, Place.address, Machine.pushWord]
      rfl
    · intro k hk
      obtain rfl : k = 0 := by simpa [Size.bytes] using hk
      simp
  | two =>
    obtain ⟨m₁, hrun, hix, hstack⟩ := run_pushWord labels m offset 0
    refine ⟨m₁, _, hrun, hix, hstack, rfl, fun k hk => ?_⟩
    obtain rfl | rfl : k = 0 ∨ k = 1 := by
      simp only [Size.bytes] at hk
      omega
    all_goals simp
  | four =>
    obtain ⟨m₁, hrun, hix, hstack⟩ := run_pushWord labels m offset 2
    obtain ⟨m₂, hrun', hix', hstack'⟩ := run_pushWord labels m₁ offset 0
    have hbyte : ∀ k : Nat, k < 2 → m₁.memory (m₁.ix + BitVec.ofInt 16 (offset + k)) =
        m.memory (m.ix + BitVec.ofInt 16 (offset + k)) := fun k hk => by
      rw [hix]
      exact h.memory_load hstack (by simp only [length_cons, length_nil]; omega)
    rw [hbyte 0 (by omega), hbyte 1 (by omega), hstack, ← Stack.load_append] at hstack'
    refine ⟨m₂, _, ?_, hix'.trans hix, hstack', rfl, fun k hk => ?_⟩
    · rw [pushFrom, List.append_assoc, run_append_of labels hrun]
      exact hrun'
    · obtain rfl | rfl | rfl | rfl : k = 0 ∨ k = 1 ∨ k = 2 ∨ k = 3 := by
        simp only [Size.bytes] at hk
        omega
      all_goals simp

/-- Bytes that several arguments take on the stack. -/
def pushedSum (sizes : List Size) : Nat := (sizes.map pushedBytes).sum

/-- What lies on the stack for an argument in the frame, as the machine was before the pushes. -/
def Machine.IsBlock (m : Machine) (argument : Int × Size) (bytes : List Byte) : Prop :=
  bytes.length = pushedBytes argument.2 ∧
    ∀ k < argument.2.bytes, bytes[k]? = some (m.memory (m.ix + BitVec.ofInt 16 (argument.1 + k)))

theorem map_length_of_isBlock {m : Machine} (h : Forall₂ m.IsBlock args blocks) :
    blocks.map length = (args.map Prod.snd).map pushedBytes := by
  induction h with
  | nil => rfl
  | cons hblock _ ih => simp [hblock.1, ih]

theorem length_of_isBlock {m : Machine} (h : Forall₂ m.IsBlock args blocks) :
    blocks.flatten.length = pushedSum (args.map Prod.snd) := by
  rw [length_flatten, map_length_of_isBlock h, pushedSum]

/-- Arguments that are pushed from the last to the first lie in order from the top. -/
theorem run_pushes (m : Machine) (h : ∀ arg ∈ args, ∃ distance,
      m.Above arg.1 distance ∧ distance + pushedSum (args.map Prod.snd) + 8 < 65536) :
    ∃ m' blocks, run labels (args.reverse.flatMap fun arg => pushFrom (.frame arg.1) arg.2) m = some m' ∧
      m'.ix = m.ix ∧ m'.stack = m.stack.load blocks.flatten ∧ Forall₂ m.IsBlock args blocks := by
  induction args with
  | nil => exact ⟨m, [], rfl, rfl, rfl, .nil⟩
  | cons arg rest ih =>
    obtain ⟨offset, size⟩ := arg
    have hsum : pushedSum (((offset, size) :: rest).map Prod.snd) =
        pushedBytes size + pushedSum (rest.map Prod.snd) := by
      simp [pushedSum]
    rw [hsum] at h
    obtain ⟨m₁, blocks, hrun, hix, hstack, hblocks⟩ := ih fun arg harg => by
      obtain ⟨distance, habove, hfits⟩ := h arg (mem_cons_of_mem _ harg)
      exact ⟨distance, habove, by omega⟩
    obtain ⟨distance, habove, hfits⟩ := h (offset, size) mem_cons_self
    have hlength := length_of_isBlock hblocks
    -- the frame has moved away from the top by what was pushed before
    have habove₁ : m₁.Above offset (blocks.flatten.length + distance) := by
      have hsp : m₁.sp = m.sp - BitVec.ofNat 16 blocks.flatten.length :=
        (congrArg Stack.top hstack).trans (m.stack.top_load _)
      rw [Machine.Above, hix, hsp, habove, ofNat_add]
      bv_omega
    obtain ⟨m₂, bytes, hrun₂, hix₂, hstack₂, hbytes, hbyte⟩ := run_pushFrom labels size habove₁ (by omega)
    refine ⟨m₂, bytes :: blocks, ?_, hix₂.trans hix, ?_, .cons ⟨hbytes, fun k hk => ?_⟩ hblocks⟩
    · rw [reverse_cons, flatMap_append, run_append_of labels hrun]
      simpa using hrun₂
    · rw [hstack₂, hstack, ← Stack.load_append, flatten_cons]
    · have hk' : k < 4 := by cases size <;> simp only [Size.bytes] at hk <;> omega
      rw [hbyte k hk, hix, habove.memory_load hstack (by omega)]

/-- Registers lie in the frame at these places, and have these sizes. -/
def Homes.Lie (homes : Homes) : List Register → List (Int × Size) → Prop :=
  List.Forall₂ fun r place => homes.get? r.id = some (.frame place.1) ∧ sizeOf r.type = .ok place.2

/-- The code that pushes arguments, of which the last comes to lie first, where they all lie in the frame. -/
theorem of_pushArguments
    (h : Gives (pushArguments ctx args) s (pushes, bytes) s') (hwithin : ctx.homes.Within low high) :
    ∃ places, ctx.homes.Lie args.reverse places ∧
      pushes = places.reverse.flatMap (fun place => pushFrom (.frame place.1) place.2) ∧
      bytes = pushedSum (places.map Prod.snd) := by
  induction args generalizing s pushes bytes with
  | nil =>
    obtain ⟨⟨rfl, rfl⟩, rfl⟩ : (pushes = [] ∧ bytes = 0) ∧ s' = s := by simpa [pushArguments] using h
    exact ⟨[], .nil, rfl, rfl⟩
  | cons r _ ih =>
    simp only [pushArguments, homeOf, sizeOfType, gives_bind, gives_check, gives_pure] at h
    obtain ⟨_, _, hhome, size, _, ⟨hsize, rfl⟩, ⟨_, _⟩, _, hrest, heq, rfl⟩ := h
    obtain ⟨rfl, rfl⟩ := Prod.mk.inj heq
    obtain ⟨places, hplaces, rfl, rfl⟩ := ih hrest
    split at hhome
    next found hfound =>
      obtain ⟨rfl, rfl⟩ := gives_pure.mp hhome
      obtain ⟨offset, rfl, -⟩ := hwithin _ _ hfound
      refine ⟨places ++ [(offset, size)], ?_, by simp, by simp [pushedSum, Nat.add_comm]⟩
      rw [reverse_cons]
      exact rel_append hplaces (.cons ⟨hfound, hsize⟩ .nil)
    · simp at hhome

end Pushes

/-! ## Code behind the call -/

/-- Code that runs through, and moves the stack pointer up by some bytes. -/
def Raises (lines : Code) (bytes : Nat) : Prop :=
  ∀ m : Machine, ∃ m', run labels lines m = some m' ∧ m'.sp = m.sp + BitVec.ofNat 16 bytes ∧ m'.ix = m.ix

variable {labels} in
theorem Raises.append (h : Raises labels lines bytes) (h' : Raises labels lines' bytes') :
    Raises labels (lines ++ lines') (bytes + bytes') := by
  intro m
  obtain ⟨m₁, hrun, hsp, hix⟩ := h m
  obtain ⟨m₂, hrun', hsp', hix'⟩ := h' m₁
  refine ⟨m₂, (run_append_of labels hrun).trans hrun', ?_, hix'.trans hix⟩
  rw [hsp', hsp, ofNat_add, BitVec.add_assoc]

theorem raises_dropArguments (words : Nat) : Raises labels (dropArguments words) (2 * words) := by
  induction words with
  | zero => exact fun m => ⟨m, rfl, by simp, rfl⟩
  | succ _ ih =>
    rw [dropArguments, range_succ, map_append]
    exact ih.append fun m => ⟨_, rfl, rfl, rfl⟩

theorem raises_storeA (home : Home) : Raises labels (storeA home) 0 :=
  fun m => ⟨_, rfl, by simp [Machine.write], rfl⟩

theorem raises_storeHL (home : Home) (i : Nat) : Raises labels (storeHL home i) 0 := by
  cases home with
  | frame | static => exact fun m => ⟨_, rfl, (BitVec.add_zero m.sp).symm, rfl⟩

theorem raises_copyFour (source target : Home) : Raises labels (copyFour source target) 0 :=
  fun m => ⟨_, rfl, (BitVec.add_zero m.sp).symm, rfl⟩

theorem raises_storeValue (h : Gives (storeValue ctx r) s lines s') : Raises labels lines 0 := by
  simp only [storeValue, gives_bind] at h
  obtain ⟨home, _, -, size, _, -, h⟩ := h
  cases size with
  | one =>
    obtain ⟨rfl, -⟩ := gives_pure.mp h
    exact raises_storeA labels home
  | two =>
    obtain ⟨rfl, -⟩ := gives_pure.mp h
    exact raises_storeHL labels home 0
  | four =>
    obtain ⟨area, _, -, h⟩ := gives_bind.mp h
    obtain ⟨rfl, -⟩ := gives_pure.mp h
    exact raises_copyFour labels area home

/-! ## Entry -/

/-- After the start of a procedure `IX` points to its saved value, and the locals lie right below. -/
theorem run_framePrologue (size : Nat) (m : Machine) :
    ∃ m', run labels (framePrologue size) m = some m' ∧ m'.memory = (m.pushWord m.ix).memory ∧
      m'.ix = (m.pushWord m.ix).sp ∧ m'.sp = m'.ix - BitVec.ofNat 16 size := by
  have hlink : ∃ m₁,
      run labels ([.code (.push .ix) "Set up frame"] ++ code [.setWord .ix 0, .addWord .ix .sp]) m = some m₁ ∧
      m₁.memory = (m.pushWord m.ix).memory ∧ m₁.ix = (m.pushWord m.ix).sp ∧ m₁.sp = (m.pushWord m.ix).sp :=
    ⟨_, rfl, rfl, BitVec.zero_add _, rfl⟩
  obtain ⟨m₁, hrun, hmemory, hix, hsp⟩ := hlink
  rw [framePrologue, run_append_of labels hrun]
  split
  next h => exact ⟨m₁, rfl, hmemory, hix, by simp [h, hix, hsp]⟩
  next h =>
    refine ⟨_, rfl, hmemory, hix, ?_⟩
    have hword : (ofInt (-(size : Int))).word 16 = -BitVec.ofNat 16 size := by
      rw [word_ofInt, ofInt_neg, ofInt_natCast]
    let m₂ := m₁.setPair .hl ((ofInt (-(size : Int))).word 16)
    show (m₂.setPair .hl (m₂.pair .hl + m₁.sp)).pair .hl = m₁.ix - BitVec.ofNat 16 size
    rw [Machine.pair_setPair, Machine.pair_setPair, hword, hix, hsp]
    bv_omega

/-! ## Calls -/

/-- A call of a procedure whose arguments have the types of its parameters, with the frames of both sides, the code
of the call and the code of the procedure. -/
structure Call where
  program : Program
  caller : Procedure
  callee : Procedure
  symbol : Symbol
  arguments : List Register
  destination : Option Register
  /-- The caller's symbol as text, and its exit. -/
  name : String
  exit : Option String
  frame : Frame
  calleeFrame : Frame
  lines : Code
  entry : Code
  calls : program.find? symbol = some callee
  isStandard : callee.convention = .standard
  sameTypes : arguments.map (·.type) = callee.parameters.map (·.register.type)
  fits : ∃ s s', Gives (frameOf caller) s frame s'
  callee_fits : ∃ s s', Gives (frameOf callee) s calleeFrame s'
  lines_emitted : ∃ s s',
    Gives (callFunction ⟨program, name, frame.homes, exit⟩ symbol arguments destination) s lines s'
  entry_emitted : ∃ s s', Gives (procedureCode program callee) s entry s'

namespace Call

variable (call : Call)

/-- The caller is between two of its instructions: nothing lies on the stack below its locals. -/
def IsAtRest (m : Machine) : Prop := m.sp = m.ix - BitVec.ofNat 16 call.frame.size

/-- Every byte of an argument is where the callee looks for the byte of its parameter, unless a later parameter has
taken the register of that one. -/
def Hands (m m' : Machine) : Prop :=
  ∀ i p argument, call.callee.parameters[i]? = some p → call.arguments[i]? = some argument →
    (∀ q ∈ call.callee.parameters.drop (i + 1), q.register.id ≠ p.register.id) →
    ∃ size home source, sizeOf p.register.type = .ok size ∧ call.calleeFrame.homes.get? p.register.id = some home ∧
      call.frame.homes.get? argument.id = some source ∧
      ∀ k < size.bytes,
        m'.memory ((home.byte k).address labels m') = m.memory ((source.byte k).address labels m)

/-- The pushes, the return address and the start of the callee put the arguments where the callee has its parameters,
and the code behind the call takes off what was pushed. -/
def Agrees (m : Machine) (returnAddress : Word) : Prop :=
  ∃ name pushes behind body m₁ m₂ pushed,
    call.lines = pushes ++ code [.call name] ++ behind ∧
    call.entry = procedureHead name .standard ++ framePrologue call.calleeFrame.size ++ body ∧
    run labels pushes m = some m₁ ∧
    run labels (framePrologue call.calleeFrame.size) (m₁.pushWord returnAddress) = some m₂ ∧
    m₂.sp = m₂.ix - BitVec.ofNat 16 call.calleeFrame.size ∧ call.Hands labels m m₂ ∧
    m₁.sp = m.sp - BitVec.ofNat 16 pushed ∧ Raises labels behind pushed

variable {call} in
theorem IsAtRest.above {m} (h : call.IsAtRest m) {offset : Int} (hoffset : -call.frame.size ≤ offset) :
    m.Above offset (offset + call.frame.size).toNat := by
  have hdistance : BitVec.ofNat 16 (offset + call.frame.size).toNat =
      BitVec.ofInt 16 offset + BitVec.ofNat 16 call.frame.size := by
    rw [← ofInt_natCast, Int.toNat_of_nonneg (by omega), ofInt_add, ofInt_natCast]
  rw [Machine.Above, h, hdistance]
  bv_omega

/-- The code of the call: the pushes, the call, and what takes the arguments off and stores the result. -/
theorem exists_lines : ∃ name s s' pushes bytes result, call.callee.symbol.text = .ok name ∧
    Gives (pushArguments ⟨call.program, call.name, call.frame.homes, call.exit⟩ call.arguments.reverse) s
      (pushes, bytes) s' ∧
    Raises labels result 0 ∧
    call.lines = pushes ++ code [.call name] ++ dropArguments (bytes / 2) ++ result := by
  obtain ⟨s, _, h⟩ := call.lines_emitted
  cases hdest : call.destination with
  | none =>
    simp only [callFunction, call.calls, call.isStandard, hdest, pure_bind, gives_bind, gives_check] at h
    obtain ⟨name, _, ⟨hname, rfl⟩, ⟨pushes, bytes⟩, _, hpushes, h⟩ := h
    exact ⟨name, _, _, pushes, bytes, [], hname, hpushes, fun m => ⟨m, rfl, by simp, rfl⟩, (gives_pure.mp h).1⟩
  | some =>
    simp only [callFunction, call.calls, call.isStandard, hdest, gives_bind, gives_check] at h
    obtain ⟨name, _, ⟨hname, rfl⟩, result, _, hresult, ⟨pushes, bytes⟩, _, hpushes, h⟩ := h
    exact ⟨name, _, _, pushes, bytes, result, hname, hpushes, raises_storeValue labels hresult, (gives_pure.mp h).1⟩

/-- The code of the callee starts with the frame that it was given. -/
theorem exists_entry {name} (hname : call.callee.symbol.text = .ok name) :
    ∃ body, call.entry = procedureHead name .standard ++ framePrologue call.calleeFrame.size ++ body := by
  obtain ⟨s, _, h⟩ := call.entry_emitted
  obtain ⟨t, _, hfits⟩ := call.callee_fits
  simp only [procedureCode, hname, call.isStandard, standardProcedure, gives_bind, gives_check] at h
  obtain ⟨_, _, ⟨hsame, rfl⟩, _, _, hframe, body, _, _, h⟩ := h
  obtain rfl := Except.ok.inj hsame
  obtain rfl := eq_of_frameOf hfits hframe
  exact ⟨body ++ epilogue _, by rw [(gives_pure.mp h).1, List.append_assoc]⟩

theorem pushedBytes_even (sizes : List Size) : 2 * (pushedSum sizes / 2) = pushedSum sizes := by
  induction sizes with
  | nil => rfl
  | cons size rest =>
    have hsum : pushedSum (size :: rest) = pushedBytes size + pushedSum rest := by simp [pushedSum]
    cases size <;> simp only [hsum, pushedBytes] <;> omega

theorem sizes_eq (hplaces : call.frame.homes.Lie call.arguments places)
    (hsizes : Forall₂ (fun q size => sizeOf q.register.type = .ok size) call.callee.parameters sizes) :
    places.map Prod.snd = sizes := by
  have hsame := congrArg (map sizeOf) call.sameTypes
  rw [map_map, map_map] at hsame
  exact eq_of_forall₂ hsame (forall₂_map_right_iff.mpr (hplaces.imp fun _ _ h => h.2)) hsizes

/-- Behind the link lie the blocks of the arguments, each as far from `IX` as the frame says. -/
theorem hands_of_load {m m' : Machine} {link}
    (hcallee : call.calleeFrame.IsOf call.callee sizes) (hplaces : call.frame.homes.Lie call.arguments places)
    (hblocks : Forall₂ m.IsBlock places blocks) (hlink : link.length = linkBytes)
    (hstack : stack = m.stack.load (link ++ blocks.flatten)) (hix : m'.ix = stack.top)
    (hmemory : m'.memory = stack.memory) : call.Hands labels m m' := by
  subst hstack
  intro i p arg hp harg hlater
  obtain rfl := call.sizes_eq hplaces hcallee.sizeOf_parameter
  obtain ⟨⟨offset, size⟩, hplace, hsource, hsize⟩ := exists_getElem?_of_forall₂ hplaces harg
  obtain ⟨_, hblock, -, hbyte⟩ := exists_getElem?_of_forall₂ hblocks hplace
  have htype : p.register.type = arg.type := by
    have h := congrArg (·[i]?) call.sameTypes
    simpa [hp, harg] using h.symm
  have hhome := hcallee.home i p hp hlater
  generalize hbefore : (((places.map Prod.snd).take i).map pushedBytes).sum = before at hhome
  refine ⟨size, _, _, htype ▸ hsize, hhome, hsource, fun k hk => ?_⟩
  have hstart : ((blocks.take i).map length).sum = before := by
    rw [← hbefore, map_take, map_take, map_length_of_isBlock hblocks]
  have hfound : (link ++ blocks.flatten)[linkBytes + before + k]? =
      some (m.memory (m.ix + BitVec.ofInt 16 (offset + k))) := by
    rw [getElem?_append_right (by omega), hlink, Nat.add_assoc, Nat.add_sub_cancel_left, ← hstart]
    exact getElem?_flatten hblock (hbyte k hk)
  have hlen : (link ++ blocks.flatten).length < 65536 := by
    have hsum : pushedSum (places.map Prod.snd) ≤ 124 := hcallee.sum_le
    rw [length_append, hlink, length_of_isBlock hblocks, linkBytes]
    omega
  have haddr : (Home.byte (.frame ↑(linkBytes + before)) k).address labels m' =
      (m.stack.load (link ++ blocks.flatten)).top + BitVec.ofNat 16 (linkBytes + before + k) := by
    rw [Home.byte, Place.address, hix, ← Int.natCast_add, ofInt_natCast]
  rw [haddr, hmemory]
  exact m.stack.memory_load hlen hfound

theorem agrees {m : Machine} (h : call.IsAtRest m) (returnAddress : Word) : call.Agrees labels m returnAddress := by
  obtain ⟨name, s, _, _, _, result, hname, hpushes, hresult, hlines⟩ := call.exists_lines labels
  obtain ⟨body, hentry⟩ := call.exists_entry hname
  obtain ⟨_, _, hframe⟩ := call.fits
  obtain ⟨_, hcaller⟩ := Frame.isOf hframe
  obtain ⟨_, _, hframe'⟩ := call.callee_fits
  obtain ⟨_, hcallee⟩ := Frame.isOf hframe'
  obtain ⟨places, hplaces, rfl, rfl⟩ := of_pushArguments hpushes hcaller.within
  rw [reverse_reverse] at hplaces
  obtain rfl := call.sizes_eq hplaces hcallee.sizeOf_parameter
  have hsum : pushedSum (places.map Prod.snd) ≤ 124 := hcallee.sum_le
  obtain ⟨m₁, blocks, hrun, hix, hstack, hblocks⟩ := run_pushes labels m fun place hplace => by
    obtain ⟨r, -, hhome, -⟩ := exists_origin hplaces hplace
    obtain ⟨_, hoffset, hlow, hhigh⟩ := hcaller.within _ _ hhome
    obtain rfl := Home.frame.inj hoffset
    have hsize := hcaller.size_le
    exact ⟨_, h.above hlow, by omega⟩
  obtain ⟨m₂, hentered, hmemory, hix₂, hrest⟩ :=
    run_framePrologue labels call.calleeFrame.size (m₁.pushWord returnAddress)
  -- below the arguments lie the return address and the saved `IX`
  have hlinked : ((m₁.pushWord returnAddress).pushWord m₁.ix).stack = m.stack.load
      ([m₁.ix.low, m₁.ix.high, returnAddress.low, returnAddress.high] ++ blocks.flatten) := by
    rw [Stack.load_append, ← hstack]
    rfl
  refine ⟨name, _, dropArguments (pushedSum (places.map Prod.snd) / 2) ++ result, body, m₁, m₂,
    pushedSum (places.map Prod.snd), by rw [hlines, List.append_assoc], hentry, hrun, hentered, hrest, ?_, ?_, ?_⟩
  · exact call.hands_of_load labels hcallee hplaces hblocks rfl hlinked hix₂ hmemory
  · rw [← length_of_isBlock hblocks]
    exact (congrArg Stack.top hstack).trans (m.stack.top_load _)
  · have hraises := (raises_dropArguments labels (pushedSum (places.map Prod.snd) / 2)).append hresult
    rwa [Nat.add_zero, pushedBytes_even] at hraises

end Call

end Retarget.Z80
