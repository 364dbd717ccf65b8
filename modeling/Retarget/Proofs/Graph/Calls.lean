import Mathlib.Data.List.Chain
import Mathlib.Data.List.Nodup
import Mathlib.Logic.Relation
import Retarget.Capability
import Retarget.Proofs.Checked

/-!
# Searches in the call graph

A search that finds no way back to its goal has seen everything that can be called: what it visited is closed
under calls, and nothing in it calls the goal. Names are visited before the procedures behind them are
searched, so while the search goes on the names on its path are not closed yet; what holds at every moment is
that the procedures visited since the search of one began are closed once it ends (`searchCycle_spec`). Every
step deeper visits a new procedure, so the bound on the depth is never reached. A search that does find a way
back has followed calls all along it (`searchCycle_arrives`). So there is a cycle exactly if one is found
(`recursionCycle_finds`).
-/
namespace Retarget

open Checked List Procedure

/-! ## Callees -/

/-- Adds the function that an instruction calls to those found before. -/
theorem mem_foldl_callees {instructions : List Instruction} {found : List Symbol} {s} :
    s ∈ instructions.foldl (fun found i =>
      match i.operation with
      | .call (.function symbol) _ _ => if found.contains symbol then found else found ++ [symbol]
      | _ => found) found ↔
    s ∈ found ∨ ∃ i ∈ instructions, ∃ arguments destination,
      i.operation = .call (.function s) arguments destination := by
  induction instructions generalizing found with
  | nil => simp
  | cons i _ ih =>
    rw [foldl_cons, ih]
    simp only [mem_cons, exists_eq_or_imp]
    rw [← or_assoc]
    refine or_congr_left ?_
    split
    · rename_i symbol arguments destination hcall
      have hcalls : (∃ arguments destination, i.operation = .call (.function s) arguments destination) ↔
          s = symbol := by
        rw [hcall]
        constructor
        · rintro ⟨_, _, h⟩
          cases h
          rfl
        · rintro rfl
          exact ⟨arguments, destination, rfl⟩
      rw [hcalls]
      split
      · rename_i hmem
        rw [contains_iff_mem] at hmem
        exact ⟨Or.inl, fun h => h.elim id fun h => h ▸ hmem⟩
      · simp
    · rename_i hno
      constructor
      · exact Or.inl
      · rintro (h | ⟨arguments, destination, h⟩)
        · exact h
        · exact absurd h (hno s arguments destination)

def Procedure.CallsSymbol (f : Procedure) (s : Symbol) : Prop :=
  ∃ i ∈ f.instructions, ∃ arguments destination, i.operation = .call (.function s) arguments destination

theorem Procedure.mem_callees {f : Procedure} {s : Symbol} : s ∈ f.callees ↔ f.CallsSymbol s := by
  have h := @mem_foldl_callees f.instructions [] s
  exact h.trans (by simp [CallsSymbol])

namespace Program

def symbols (p : Program) : List Symbol := p.procedures.flatMap fun f => f.symbol :: f.callees

/-- Different symbols have different texts. -/
def DistinctTexts (p : Program) : Prop :=
  ∀ s ∈ p.symbols, ∀ t ∈ p.symbols, ∀ name, s.text = .ok name → t.text = .ok name → s = t

/-- Different symbols have different texts, and so have different procedures. -/
structure TellsApart (p : Program) : Prop where
  texts : p.DistinctTexts
  procedures : (p.procedures.map (·.symbol)).Nodup

def Calls (p : Program) (f g : Procedure) : Prop := ∃ s ∈ f.callees, p.find? s = some g

section
variable {p : Program} {f g : Procedure} {s : Symbol} {goal : Symbol}

theorem mem_of_find? (h : p.find? s = some f) : f ∈ p.procedures ∧ f.symbol = s :=
  ⟨mem_of_find?_eq_some h, by simpa using find?_some h⟩

theorem symbol_mem_symbols (hf : f ∈ p.procedures) : f.symbol ∈ p.symbols :=
  mem_flatMap.mpr ⟨f, hf, mem_cons_self⟩

theorem callee_mem_symbols (hf : f ∈ p.procedures) (hs : s ∈ f.callees) : s ∈ p.symbols :=
  mem_flatMap.mpr ⟨f, hf, mem_cons_of_mem _ hs⟩

/-! ## What a search has seen -/

/-- Everything that the procedure calls is visited, and it does not call the goal. -/
def Explored (goal : Symbol) (visited : List String) (callees : List Symbol) : Prop :=
  ∀ s ∈ callees, s ≠ goal ∧ ∃ name ∈ visited, s.text = .ok name

/-- What a search that finds nothing has done since `visited`: it visited more, and explored every procedure
that is new among what it visited. -/
structure Extends (p : Program) (goal : Symbol) (visited visited' : List String) : Prop where
  subset : visited ⊆ visited'
  explored : ∀ s f, p.find? s = some f → ∀ name ∈ visited', s.text = .ok name → name ∉ visited →
    Explored goal visited' f.callees

def isUnvisited (visited : List String) (f : Procedure) : Bool := f.symbol.text.toOption.all (· ∉ visited)

def unvisited (p : Program) (visited : List String) : Nat := p.procedures.countP (isUnvisited visited)

theorem Explored.mono {visited visited' callees} (h : Explored goal visited callees) (hsubset : visited ⊆ visited') :
    Explored goal visited' callees := by
  intro s hs
  obtain ⟨hne, name, hname, htext⟩ := h s hs
  exact ⟨hne, name, hsubset hname, htext⟩

theorem Extends.refl (p : Program) (goal : Symbol) (visited : List String) : p.Extends goal visited visited :=
  ⟨Subset.refl _, fun _ _ _ _ hname _ hnot => absurd hname hnot⟩

theorem Extends.trans {v₁ v₂ v₃} (h₁ : p.Extends goal v₁ v₂) (h₂ : p.Extends goal v₂ v₃) : p.Extends goal v₁ v₃ := by
  refine ⟨Subset.trans h₁.subset h₂.subset, fun s f hf name hname htext hnot => ?_⟩
  by_cases hmid : name ∈ v₂
  · exact (h₁.explored s f hf name hmid htext hnot).mono h₂.subset
  · exact h₂.explored s f hf name hname htext hmid

/-- The search of a procedure closes its name once its callees are explored. -/
theorem Extends.visit (hp : p.DistinctTexts) (hs : s ∈ p.symbols) (hname : s.text = .ok name)
    (hexplored : ∀ f, p.find? s = some f → Explored goal visited' f.callees)
    (h : p.Extends goal (visited ++ [name]) visited') : p.Extends goal visited visited' := by
  refine ⟨fun other hother => h.subset (mem_append_left _ hother), fun t f hf other hother htext hnot => ?_⟩
  by_cases heq : other = name
  · subst heq
    obtain ⟨hmem, rfl⟩ := mem_of_find? hf
    rw [hp _ (symbol_mem_symbols hmem) s hs other htext hname] at hf
    exact hexplored f hf
  · refine h.explored t f hf other hother htext fun hmem => ?_
    rcases mem_append.mp hmem with hmem | hmem
    · exact hnot hmem
    · exact heq (mem_singleton.mp hmem)

theorem isUnvisited_mono (hsubset : visited ⊆ visited') (f : Procedure)
    (h : isUnvisited visited' f = true) : isUnvisited visited f = true := by
  unfold isUnvisited at h ⊢
  cases htext : f.symbol.text.toOption with
  | none => rfl
  | some =>
    simp only [htext, Option.all_some, decide_eq_true_eq] at h ⊢
    exact fun hmem => h (hsubset hmem)

theorem unvisited_le (hsubset : visited ⊆ visited') : p.unvisited visited' ≤ p.unvisited visited :=
  countP_mono_left fun f _ => isUnvisited_mono hsubset f

/-- Visiting a procedure for the first time leaves fewer to visit. -/
theorem unvisited_lt (hf : f ∈ p.procedures) (htext : f.symbol.text = .ok name) (hnew : name ∉ visited) :
    p.unvisited (visited ++ [name]) < p.unvisited visited := by
  have hbefore : isUnvisited visited f = true := by simp [isUnvisited, htext, Except.toOption, hnew]
  have hafter : isUnvisited (visited ++ [name]) f = false := by simp [isUnvisited, htext, Except.toOption]
  have hmono : ∀ fs : List Procedure, fs.countP (isUnvisited (visited ++ [name])) ≤ fs.countP (isUnvisited visited) :=
    fun fs => countP_mono_left fun g _ => isUnvisited_mono (subset_append_left _ _) g
  obtain ⟨front, back, hsplit⟩ := append_of_mem hf
  have hfront := hmono front
  have hback := hmono back
  unfold unvisited
  rw [hsplit, countP_append, countP_append, countP_cons, countP_cons, hbefore, hafter]
  simp only [Bool.false_eq_true, if_false, if_true]
  omega

/-! ## Searches -/

/-- What a search deeper down does if it finds nothing. -/
def Deepens (p : Program) (goal : Symbol) (depth : Nat)
    (deeper : Procedure → List String → List String → Checked Search) : Prop :=
  ∀ f ∈ p.procedures, ∀ path visited visited', p.unvisited visited < depth →
    deeper f path visited = .ok ⟨none, visited'⟩ →
    p.Extends goal visited visited' ∧ Explored goal visited' f.callees

theorem searchCallees_spec (hp : p.DistinctTexts) {depth}
    {deeper : Procedure → List String → List String → Checked Search} (hdeeper : p.Deepens goal depth deeper)
    {path callees} (hcallees : ∀ s ∈ callees, s ∈ p.symbols) {visited visited'}
    (hdepth : p.unvisited visited < depth + 1)
    (h : p.searchCallees goal deeper path callees visited = .ok ⟨none, visited'⟩) :
    p.Extends goal visited visited' ∧ Explored goal visited' callees := by
  induction callees generalizing visited with
  | nil =>
    cases h
    exact ⟨.refl p goal _, nofun⟩
  | cons callee rest ih =>
    have hcallee := hcallees callee mem_cons_self
    have ih := @ih fun s hs => hcallees s (mem_cons_of_mem _ hs)
    -- the callee's name is visited in the end, and the others are explored
    have hcons : ∀ {name v}, callee ≠ goal → callee.text = .ok name → name ∈ v → p.Extends goal v visited' →
        Explored goal visited' rest → Explored goal visited' (callee :: rest) := by
      intro name v hne htext hname hextends hrest s hs
      rcases mem_cons.mp hs with rfl | hs
      · exact ⟨hne, name, hextends.subset hname, htext⟩
      · exact hrest s hs
    have hshrinks : ∀ {v}, visited ⊆ v → p.unvisited v < depth + 1 :=
      fun hv => Nat.lt_of_le_of_lt (unvisited_le hv) hdepth
    unfold searchCallees at h
    obtain ⟨name, htext, h⟩ := bind_eq_ok.mp h
    split at h
    · cases h
    · rename_i hne
      split at h
      · -- visited before
        rename_i hvisited
        obtain ⟨hextends, hrest⟩ := ih hdepth h
        exact ⟨hextends, hcons hne htext (contains_iff_mem.mp hvisited) hextends hrest⟩
      · rename_i hvisited
        have hnew : name ∉ visited := fun h => hvisited (contains_iff_mem.mpr h)
        split at h
        · -- not defined in the program
          rename_i hnone
          obtain ⟨hextends, hrest⟩ := ih (hshrinks (subset_append_left _ _)) h
          refine ⟨hextends.visit hp hcallee htext fun f hf => ?_,
            hcons hne htext (mem_append_right _ (mem_singleton_self _)) hextends hrest⟩
          rw [hnone] at hf
          cases hf
        · rename_i next hnext
          obtain ⟨found, hfound, h⟩ := bind_eq_ok.mp h
          rcases found with ⟨_ | _, _⟩
          · -- searched on from there without finding anything
            obtain ⟨hmem, hsym⟩ := mem_of_find? hnext
            have hless := unvisited_lt hmem (hsym ▸ htext) hnew
            obtain ⟨hdeep, hexplored⟩ := hdeeper next hmem _ _ _ (by omega) hfound
            obtain ⟨hextends, hrest⟩ := ih (hshrinks
              (Subset.trans (subset_append_left _ _) hdeep.subset)) h
            refine ⟨(hdeep.trans hextends).visit hp hcallee htext fun f hf => ?_,
              hcons hne htext (hdeep.subset (mem_append_right _ (mem_singleton_self _))) hextends hrest⟩
            rw [hnext] at hf
            cases hf
            exact hexplored.mono hextends.subset
          · cases h

theorem searchCycle_spec (hp : p.DistinctTexts) (depth : Nat) : p.Deepens goal depth (p.searchCycle goal depth) := by
  induction depth with
  | zero =>
    intro f _ _ _ _ hdepth
    exact absurd hdepth (Nat.not_lt_zero _)
  | succ _ ih =>
    intro f hf _ _ _ hdepth h
    exact searchCallees_spec hp ih (fun s hs => callee_mem_symbols hf hs) hdepth h

/-- What a search for a cycle has seen if it found none: the procedure and all that is visited are explored. -/
theorem explored_of_recursionCycle (hp : p.DistinctTexts) (hf : f ∈ p.procedures) (h : p.recursionCycle f = .ok none) :
    ∃ visited, Explored f.symbol visited f.callees ∧
      ∀ {callees : List Symbol} {s : Symbol} {g : Procedure}, Explored f.symbol visited callees → s ∈ callees →
        p.find? s = some g → Explored f.symbol visited g.callees := by
  unfold recursionCycle at h
  obtain ⟨name, -, h⟩ := bind_eq_ok.mp h
  obtain ⟨⟨_, visited⟩, hsearch, h⟩ := bind_eq_ok.mp h
  cases h
  have hdepth : p.unvisited [] < p.procedures.length + 1 := Nat.lt_succ_of_le countP_le_length
  obtain ⟨hextends, hexplored⟩ := searchCycle_spec hp _ f hf _ _ _ hdepth hsearch
  refine ⟨visited, hexplored, fun hcallees hs hg => ?_⟩
  obtain ⟨-, name, hname, htext⟩ := hcallees _ hs
  exact hextends.explored _ _ hg name hname htext not_mem_nil

/-- A procedure without a cycle is not called, however indirectly, by anything that it calls. -/
theorem not_calls_of_recursionCycle (hp : p.TellsApart) (hf : f ∈ p.procedures)
    (h : p.recursionCycle f = .ok none) : ¬ Relation.TransGen p.Calls f f := by
  obtain ⟨visited, hexplored, hclosed⟩ := explored_of_recursionCycle hp.texts hf h
  -- what can be reached is explored
  have hreach : ∀ g, Relation.TransGen p.Calls f g → g.symbol ≠ f.symbol ∧ Explored f.symbol visited g.callees := by
    have hone : ∀ {callees : List Symbol} {s : Symbol} {g : Procedure}, Explored f.symbol visited callees →
        s ∈ callees → p.find? s = some g → g.symbol ≠ f.symbol ∧ Explored f.symbol visited g.callees := by
      intro _ s g hcallees hs hg
      exact ⟨(mem_of_find? hg).2 ▸ (hcallees s hs).1, hclosed hcallees hs hg⟩
    intro g hg
    induction hg with
    | single hcalls =>
      obtain ⟨s, hs, hg⟩ := hcalls
      exact hone hexplored hs hg
    | tail _ hcalls ih =>
      obtain ⟨s, hs, hg⟩ := hcalls
      exact hone ih.2 hs hg
  exact fun hcycle => (hreach f hcycle).1 rfl

/-! ## Cycles -/

/-- A chain of calls leads from the procedure to the goal: one of its instructions calls the goal, or it calls a
procedure of the program from which a chain leads there. -/
inductive LeadsTo (p : Program) (goal : Symbol) : Procedure → Prop
  | calls {f : Procedure} (called : f.CallsSymbol goal) : LeadsTo p goal f
  | through {f g : Procedure} {s : Symbol} (called : f.CallsSymbol s) (found : p.find? s = some g)
      (rest : LeadsTo p goal g) : LeadsTo p goal f

/-- No chain of calls leads out of what is explored to the goal. -/
theorem LeadsTo.not_explored
    (hclosed : ∀ {callees : List Symbol} {s : Symbol} {g : Procedure}, Explored goal visited callees → s ∈ callees →
      p.find? s = some g → Explored goal visited g.callees)
    (h : p.LeadsTo goal f) : ¬ Explored goal visited f.callees := by
  induction h with
  | calls called => exact fun hexplored => (hexplored goal (mem_callees.mpr called)).1 rfl
  | through called found _ ih => exact fun hexplored => ih (hclosed hexplored (mem_callees.mpr called) found)

/-- The names are those of a procedure of the program and of a function that it calls. -/
def NamesCall (p : Program) (caller callee : String) : Prop :=
  ∃ f ∈ p.procedures, f.symbol.text = .ok caller ∧ ∃ s, f.CallsSymbol s ∧ s.text = .ok callee

/-- The names from the procedure's own back to it, each of a procedure that calls the next. -/
structure IsCycle (p : Program) (f : Procedure) (names : List String) : Prop where
  ends : ∃ name, f.symbol.text = .ok name ∧ names.head? = some name ∧ names.getLast? = some name
  long : 2 ≤ names.length
  calls : names.IsChain p.NamesCall

/-- A search that finds a way from a procedure, the last on the path, has followed calls to the goal. -/
def Arrives (p : Program) (goal : Symbol) (f : Procedure) (path : List String)
    (search : List String → Checked Search) : Prop :=
  ∀ visited visited' cycle, search visited = .ok ⟨some cycle, visited'⟩ →
    p.LeadsTo goal f ∧ ∃ more name, goal.text = .ok name ∧ cycle = path ++ more ++ [name] ∧
      cycle.IsChain p.NamesCall

theorem searchCallees_arrives {deeper : Procedure → List String → List String → Checked Search} {path name}
    (hf : f ∈ p.procedures) (hname : f.symbol.text = .ok name) (hpath : (path ++ [name]).IsChain p.NamesCall)
    (hdeeper : ∀ g ∈ p.procedures, ∀ other, g.symbol.text = .ok other →
      (path ++ [name] ++ [other]).IsChain p.NamesCall →
      p.Arrives goal g (path ++ [name] ++ [other]) (deeper g (path ++ [name] ++ [other]))) {callees : List Symbol}
    (hcallees : callees ⊆ f.callees) :
    p.Arrives goal f (path ++ [name]) (p.searchCallees goal deeper (path ++ [name]) callees) := by
  intro visited _ _ h
  induction callees generalizing visited with
  | nil => cases h
  | cons callee _ ih =>
    have ih := @ih (fun s hs => hcallees (.tail _ hs))
    have hcalled : f.CallsSymbol callee := mem_callees.mp (hcallees (.head _))
    unfold searchCallees at h
    obtain ⟨other, htext, h⟩ := bind_eq_ok.mp h
    -- the path goes on with the callee
    have hlonger : (path ++ [name] ++ [other]).IsChain p.NamesCall := by
      rw [append_assoc]
      exact isChain_append_cons_cons.mpr ⟨hpath, ⟨f, hf, hname, callee, hcalled, htext⟩, .singleton _⟩
    split at h
    · rename_i hgoal
      cases h
      subst hgoal
      exact ⟨.calls hcalled, [], other, htext, by rw [append_nil], hlonger⟩
    · split at h
      · exact ih _ h
      · split at h
        · exact ih _ h
        · rename_i next hnext
          obtain ⟨found, hfound, h⟩ := bind_eq_ok.mp h
          rcases found with ⟨_ | _, _⟩
          · exact ih _ h
          · cases h
            obtain ⟨hmem, rfl⟩ := mem_of_find? hnext
            obtain ⟨hleads, more, last, hlast, rfl, hchain⟩ := hdeeper next hmem other htext hlonger _ _ _ hfound
            exact ⟨.through hcalled hnext hleads, [other] ++ more, last, hlast, by simp, hchain⟩

theorem searchCycle_arrives (depth : Nat) {path name} (hf : f ∈ p.procedures) (hname : f.symbol.text = .ok name)
    (hpath : (path ++ [name]).IsChain p.NamesCall) :
    p.Arrives goal f (path ++ [name]) (p.searchCycle goal depth f (path ++ [name])) := by
  induction depth generalizing f path name with
  | zero =>
    intro _ _ _ h
    cases h
  | succ _ ih =>
    exact searchCallees_arrives hf hname hpath (fun g hg other hother hlonger => ih hg hother hlonger)
      (Subset.refl _)

/-! ## Searches come to an end -/

theorem searchCallees_ok {deeper : Procedure → List String → List String → Checked Search}
    (hdeeper : ∀ f ∈ p.procedures, ∀ path visited, ∃ found, deeper f path visited = .ok found) {path callees}
    (hcallees : ∀ s ∈ callees, ∃ name, s.text = .ok name) (visited : List String) :
    ∃ found, p.searchCallees goal deeper path callees visited = .ok found := by
  induction callees generalizing visited with
  | nil => exact ⟨_, rfl⟩
  | cons callee _ ih =>
    have ih := ih fun s hs => hcallees s (.tail _ hs)
    obtain ⟨name, htext⟩ := hcallees callee (.head _)
    unfold searchCallees
    simp only [htext, bind, Except.bind]
    split
    · exact ⟨_, rfl⟩
    · split
      · exact ih visited
      · split
        · exact ih _
        · rename_i next hnext
          obtain ⟨_, hfound⟩ := hdeeper next (mem_of_find? hnext).1 (path ++ [name]) (visited ++ [name])
          simp only [hfound]
          split
          · exact ⟨_, rfl⟩
          · exact ih _

theorem searchCycle_ok (hp : ∀ s ∈ p.symbols, ∃ name, s.text = .ok name) (depth : Nat) (hf : f ∈ p.procedures)
    (path visited : List String) : ∃ found, p.searchCycle goal depth f path visited = .ok found := by
  induction depth generalizing f path visited with
  | zero => exact ⟨_, rfl⟩
  | succ _ ih =>
    exact searchCallees_ok (fun g hg path visited => ih hg path visited)
      (fun s hs => hp s (callee_mem_symbols hf hs)) visited

/-- A way that is found from a procedure back to it goes round a cycle. -/
theorem isCycle_of_recursionCycle (hf : f ∈ p.procedures) (h : p.recursionCycle f = .ok (some cycle)) :
    p.LeadsTo f.symbol f ∧ p.IsCycle f cycle := by
  unfold recursionCycle at h
  obtain ⟨name, hname, h⟩ := bind_eq_ok.mp h
  obtain ⟨⟨_, _⟩, hsearch, h⟩ := bind_eq_ok.mp h
  cases h
  have hpath : ([] ++ [name]).IsChain p.NamesCall := .singleton name
  obtain ⟨hleads, _, _, hlast, rfl, hchain⟩ := searchCycle_arrives _ hf hname hpath _ _ _ hsearch
  cases hname.symm.trans hlast
  exact ⟨hleads, ⟨name, hname, rfl, getLast?_concat⟩, by simp, hchain⟩

/-- A cycle is found for a procedure exactly if a chain of calls leads back to it, and what is found is one. -/
theorem recursionCycle_finds (hnamed : ∀ s ∈ p.symbols, ∃ name, s.text = .ok name) (hp : p.DistinctTexts)
    (hf : f ∈ p.procedures) :
    ∃ result, p.recursionCycle f = .ok result ∧ (result.isSome ↔ p.LeadsTo f.symbol f) ∧
      ∀ cycle, result = some cycle → p.IsCycle f cycle := by
  obtain ⟨result, h⟩ : ∃ result, p.recursionCycle f = .ok result := by
    obtain ⟨name, hname⟩ := hnamed _ (symbol_mem_symbols hf)
    obtain ⟨found, hfound⟩ : ∃ found, p.searchCycle f.symbol (p.procedures.length + 1) f [name] [] = .ok found :=
      searchCycle_ok hnamed _ hf _ _
    exact ⟨found.path, by simp only [recursionCycle, hname, hfound, bind, Except.bind, pure, Except.pure]⟩
  refine ⟨result, h, ?_⟩
  cases result with
  | none =>
    obtain ⟨_, hexplored, hclosed⟩ := explored_of_recursionCycle hp hf h
    exact ⟨⟨nofun, fun hleads => absurd hexplored (hleads.not_explored hclosed)⟩, nofun⟩
  | some =>
    obtain ⟨hleads, hcycle⟩ := isCycle_of_recursionCycle hf h
    exact ⟨⟨fun _ => hleads, fun _ => rfl⟩, fun _ heq => Option.some.inj heq ▸ hcycle⟩

end

/-- A procedure that only calls the functions named. -/
def callsOnly (name : String) (callees : List String) : Procedure :=
  ⟨⟨"M", name, []⟩, [], .void, [], [], callees.map fun callee => ⟨.call (.function ⟨"M", callee, []⟩) [] none, ""⟩,
    false, false, .standard⟩

/-- Three procedures that call each other in a ring, with a call to nowhere and a way back that leaves out `f`. -/
def ring : Program :=
  ⟨"M", [callsOnly "f" ["g"], callsOnly "g" ["out", "h"], callsOnly "h" ["g", "f"], callsOnly "main" ["f"]], [], []⟩

/-- The search goes past the calls that lead nowhere, and there is no way back to where the ring is entered. -/
theorem ring_recursionCycle :
    ring.recursionCycle (callsOnly "f" ["g"]) = .ok (some ["M_f", "M_g", "M_h", "M_f"]) ∧
      ring.LeadsTo ⟨"M", "f", []⟩ (callsOnly "f" ["g"]) ∧
      ring.IsCycle (callsOnly "f" ["g"]) ["M_f", "M_g", "M_h", "M_f"] ∧
      ¬ ring.LeadsTo ⟨"M", "main", []⟩ (callsOnly "main" ["f"]) := by
  have hnamed : ∀ s ∈ ring.symbols, ∃ name, s.text = .ok name := by
    intro s hs
    have hmangling : ∀ s ∈ ring.symbols, s.mangling = [] := by decide
    exact ⟨_, by rw [Symbol.text, hmangling s hs]; rfl⟩
  have hdistinct : ring.DistinctTexts := by
    intro s hs t ht _ hname htext
    have heq : ∀ s ∈ ring.symbols, ∀ t ∈ ring.symbols, s.text = t.text → s = t := by decide +kernel
    exact heq s hs t ht (hname.trans htext.symm)
  have hfound : ring.recursionCycle (callsOnly "f" ["g"]) = .ok (some ["M_f", "M_g", "M_h", "M_f"]) := by
    decide +kernel
  have hnone : ring.recursionCycle (callsOnly "main" ["f"]) = .ok none := by decide +kernel
  obtain ⟨_, h, hleads, hcycle⟩ := recursionCycle_finds hnamed hdistinct (f := callsOnly "f" ["g"]) (by decide)
  cases hfound.symm.trans h
  obtain ⟨_, h', hleads', -⟩ := recursionCycle_finds hnamed hdistinct (f := callsOnly "main" ["f"]) (by decide)
  cases hnone.symm.trans h'
  exact ⟨hfound, hleads.mp rfl, hcycle _ rfl, fun hback => nomatch hleads'.mpr hback⟩

end Program

end Retarget
