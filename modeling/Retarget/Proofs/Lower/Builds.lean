import Retarget.Proofs.Lower.Insulation
import Retarget.Proofs.Lower.Termination

/-!
# Builds are runs

A build is a run of a small machine. As long as ordinary functions are left it takes up the next of them, and
then the first instance that waits; a refusal for instances without end leaves it nothing more to do. The machine
knows nothing of lists of errors. The errors of the build are the refusals of the run, in the order in which
functions were taken up, and its program has what the run has lowered.
-/
namespace Retarget

open InstanceCache List Source

/-- What lowering a function of the module may look up. -/
def Source.Module.context (module : Source.Module) (declaration : Source.Declaration) (name : String)
    (bindings : Assoc String Ty) : Lower.Context :=
  { module, globals := module.globals.map (·.lower module.name), declaration, name, bindings }

namespace Lower

/-! ## Runs -/

/-- What a build takes up: an ordinary function, by its place among the declarations, or an instance. -/
inductive Job where
  | ordinary (place : Nat)
  | specialized (key : Instance.Key)
deriving DecidableEq, Repr

/-- A function that was taken up, and what came of it. -/
structure Attempt where
  job : Job
  verdict : Except Diagnostic Procedure

namespace Attempt

/-- What the function was refused for. -/
def failure? (a : Attempt) : Option Diagnostic :=
  match a.verdict with
  | .ok _ => none
  | .error diagnostic => some diagnostic

def isFatal (a : Attempt) : Bool := a.failure?.any (·.isFatal)

def reportOn? (place : Nat) (a : Attempt) : Option Diagnostic := if a.job = .ordinary place then a.failure? else none

def ordinary? (a : Attempt) : Option Procedure :=
  match a.job with
  | .ordinary _ => a.verdict.toOption
  | .specialized _ => none

end Attempt

/-- What is left to do: the ordinary functions with their places, and the instances that wait. -/
structure Work where
  ordinary : List (Source.Declaration × Nat)
  shared : Shared

def Work.IsDone (w : Work) : Prop := w.ordinary = [] ∧ w.shared.cache.queue = []

def Work.after (a : Attempt) (w : Work) : Work :=
  if a.isFatal then ⟨[], { w.shared with cache := w.shared.cache.clear }⟩ else w

/-- Lowering the function with what is shared comes to a verdict. -/
def Tries (ctx : Context) (symbol : Symbol) (a : Shared) (verdict : Except Diagnostic Procedure) (b : Shared) : Prop :=
  ∃ t, (lowerFunction ctx symbol).result ⟨a, .empty⟩ = (verdict.mapError .refused, t) ∧ b = t.shared

/-- What is shared when an instance has got its body, if it has one. -/
def Shared.settled (b : Shared) (place : Nat) : Except Diagnostic Procedure → Shared
  | .ok procedure => { b with cache := b.cache.complete place procedure }
  | .error _ => b

/-- One function is taken up. -/
inductive Step (module : Source.Module) : Work → Attempt → Work → Prop
  | ordinary {d : Source.Declaration} {place : Nat} {rest : List (Source.Declaration × Nat)} {a b : Shared}
      {name : String} {verdict : Except Diagnostic Procedure} (named : Symbol.text ⟨module.name, d.name, []⟩ = .ok name)
      (tried : Tries (module.context d name []) ⟨module.name, d.name, []⟩ a verdict b) :
      Step module ⟨(d, place) :: rest, a⟩ ⟨.ordinary place, verdict⟩ (.after ⟨.ordinary place, verdict⟩ ⟨rest, b⟩)
  | specialized {a b : Shared} {place : Nat} {i : Instance} {rest : InstanceCache} {d : Source.Declaration}
      {name : String} {verdict : Except Diagnostic Procedure} (next : a.cache.next? = some (place, i, rest))
      (found : module.functions[i.template]? = some d) (named : i.symbol.text = .ok name)
      (tried : Tries (module.context d name i.bindings) i.symbol { a with cache := rest } verdict b) :
      Step module ⟨[], a⟩ ⟨.specialized i.key, verdict⟩
        (.after ⟨.specialized i.key, verdict⟩ ⟨[], b.settled place verdict⟩)

/-- Functions are taken up one after the other. -/
inductive Steps (module : Source.Module) : Work → List Attempt → Work → Prop
  | none {w : Work} : Steps module w [] w
  | next {w u v : Work} {a : Attempt} {attempts : List Attempt} (first : Step module w a u)
      (others : Steps module u attempts v) : Steps module w (a :: attempts) v

end Lower

open Lower

def Source.Module.ordinary (module : Source.Module) : List (Source.Declaration × Nat) :=
  module.functions.zipIdx.filter (·.1.typeParameters.isEmpty)

/-- The attempts that a whole build makes, and what is left in the end. -/
def Source.Module.Builds (module : Source.Module) (limits : InstantiationLimits) (attempts : List Attempt)
    (final : Work) : Prop :=
  Steps module ⟨module.ordinary, [], .empty module.name limits⟩ attempts final ∧ final.IsDone

namespace Lower

variable {module : Module} {w u v : Work} {attempt : Attempt} {attempts : List Attempt}

theorem Steps.append (h : Steps module w attempts u) (h' : Steps module u attempts' v) :
    Steps module w (attempts ++ attempts') v := by
  induction h with
  | none => exact h'
  | next first _ ih => exact .next first (ih h')

/-! ## What a step does -/

theorem isDone_after_of_isFatal (h : attempt.isFatal = true) (w : Work) : (w.after attempt).IsDone := by
  rw [Work.after, if_pos h]
  exact ⟨rfl, rfl⟩

theorem after_of_not_isFatal (h : attempt.isFatal = false) (w : Work) : w.after attempt = w := by
  rw [Work.after, if_neg (by simp [h])]

/-- All that a function does to what is shared is to ask for instances and to add strings. -/
theorem Tries.asked (h : Tries (module.context d name bindings) symbol a verdict b) :
    Asked module.functions a.cache b.cache := by
  obtain ⟨t, hresult, rfl⟩ := h
  have hasks := asks_lowerFunction (module.context d name bindings) symbol ⟨a, .empty⟩
  rw [hresult] at hasks
  exact hasks

theorem Step.isOf (h : Step module w attempt u) (hw : w.shared.cache.IsOf module) : u.shared.cache.IsOf module := by
  have hafter : ∀ {v : Work}, v.shared.cache.IsOf module → (v.after attempt).shared.cache.IsOf module := fun hv => by
    unfold Work.after
    split
    · exact ⟨hv.home, hv.made⟩
    · exact hv
  cases h with
  | ordinary _ tried => exact hafter (hw.asked tried.asked)
  | @specialized a _ _ _ _ _ _ _ next _ _ tried =>
    obtain ⟨queue, -, -, rfl⟩ := next?_cases next
    have htaken : IsOf module { a.cache with queue } := ⟨hw.home, hw.made⟩
    have hb := htaken.asked tried.asked
    refine hafter ?_
    unfold Shared.settled
    split
    · exact Ledger.isOf_complete hb _ _
    · exact hb

theorem Steps.isOf (h : Steps module w attempts u) (hw : w.shared.cache.IsOf module) : u.shared.cache.IsOf module := by
  induction h with
  | none => exact hw
  | next first _ ih => exact ih (first.isOf hw)

/-! ## From builds to runs -/

variable {b b' : Build}

/-- Everything that comes of taking up one more function, as long as the build goes on. -/
theorem tries_of_lowerOrRecord {d symbol bindings result} (hgoes : b.fatal = false)
    (h : lowerOrRecord module (module.globals.map (·.lower module.name)) d symbol bindings b = (.ok result, b')) :
    ∃ name verdict shared, symbol.text = .ok name ∧
      Tries (module.context d name bindings) symbol b.shared verdict shared ∧ result = verdict.toOption ∧
      ∀ job, b'.errors = b.errors ++ (Attempt.mk job verdict).failure?.toList ∧
        b'.fatal = (Attempt.mk job verdict).isFatal ∧
        b'.shared = (Work.after ⟨job, verdict⟩ ⟨[], shared⟩).shared := by
  unfold lowerOrRecord at h
  rw [if_neg (by simp [hgoes])] at h
  cases hname : symbol.text with
  | error =>
    rw [hname] at h
    cases h
  | ok name =>
    rw [hname] at h
    dsimp only at h
    generalize hresult : (lowerFunction _ symbol).run.run ⟨b.shared, .empty⟩ = outcome at h
    obtain ⟨(diag | fault) | f, t⟩ := outcome <;> dsimp only at h
    · refine ⟨name, .error diag, t.shared, rfl, ⟨t, hresult, rfl⟩, ?_⟩
      cases hfatal : diag.isFatal with
      | true =>
        rw [if_pos hfatal] at h
        cases h
        exact ⟨rfl, fun job => by simp [Attempt.failure?, Attempt.isFatal, Work.after, hfatal]⟩
      | false =>
        rw [if_neg (by simp [hfatal])] at h
        cases h
        exact ⟨rfl, fun job => by simp [Attempt.failure?, Attempt.isFatal, Work.after, hfatal, hgoes]⟩
    · cases h
    · cases h
      refine ⟨name, .ok f, t.shared, rfl, ⟨t, hresult, rfl⟩, rfl, fun job => ?_⟩
      simp [Attempt.failure?, Attempt.isFatal, Work.after, hgoes]

theorem failures_cons (a : Attempt) (attempts : List Attempt) :
    (a :: attempts).filterMap (·.failure?) = a.failure?.toList ++ attempts.filterMap (·.failure?) := by
  rw [filterMap_cons]
  cases a.failure? <;> rfl

/-- The build has come from one piece of work to the next by the attempts. -/
def Reaches (module : Source.Module) (ordinary : List (Source.Declaration × Nat)) (b : Build) (attempts : List Attempt)
    (b' : Build) : Prop :=
  Steps module ⟨ordinary, b.shared⟩ attempts ⟨[], b'.shared⟩ ∧ b'.errors = b.errors ++ attempts.filterMap (·.failure?) ∧
    (b'.fatal = true → b'.shared.cache.queue = [])

theorem TakesOrdinary.eq_of_fatal (h : TakesOrdinary module globals decls b taken outcome) (hfatal : b.fatal = true) :
    outcome = (.ok [], b) := by
  have hskip : ∀ d : Declaration, lowerOrRecord module globals d ⟨module.name, d.name, []⟩ [] b = (.ok none, b) :=
    fun _ => if_pos hfatal
  induction h with
  | done => rfl
  | template _ _ ih => exact ih hfatal hskip
  | fails _ lowered =>
    rw [hskip] at lowered
    cases lowered
  | next _ lowered _ ih =>
    rw [hskip] at lowered
    cases lowered
    cases ih hfatal hskip
    rfl

theorem TakesOrdinary.reaches {decls taken procedures outcome}
    (h : TakesOrdinary module (module.globals.map (·.lower module.name)) decls b taken outcome)
    (houtcome : outcome = (.ok procedures, b')) (hgoes : b.fatal = false) (start : Nat) :
    ∃ attempts, Reaches module ((decls.zipIdx start).filter (·.1.typeParameters.isEmpty)) b attempts b' ∧
      attempts.filterMap (·.ordinary?) = procedures := by
  induction h generalizing procedures start with
  | done =>
    cases houtcome
    exact ⟨[], ⟨.none, by simp, by simp [hgoes]⟩, rfl⟩
  | template generic _ ih =>
    rw [zipIdx_cons, filter_cons, if_neg (by simpa using generic)]
    exact ih houtcome hgoes (start + 1)
  | fails => cases houtcome
  | @next d rest b c _ _ _ result plain lowered others ih =>
    rw [zipIdx_cons, filter_cons, if_pos (by simp [plain])]
    obtain ⟨_, verdict, shared, hname, htried, rfl, heffect⟩ := tries_of_lowerOrRecord hgoes lowered
    obtain ⟨herrors, hfatal, hshared⟩ := heffect (.ordinary start)
    have hstep : Step module ⟨(d, start) :: (rest.zipIdx (start + 1)).filter (·.1.typeParameters.isEmpty), b.shared⟩
      ⟨.ordinary start, verdict⟩ _ := .ordinary hname htried
    have hfirst : ∀ later : List Attempt, (⟨.ordinary start, verdict⟩ :: later).filterMap (·.ordinary?) =
        verdict.toOption.toList ++ later.filterMap (·.ordinary?) := fun later => by
      cases verdict <;> rfl
    cases result with
    | error => cases houtcome
    | ok =>
      cases houtcome
      cases hends : c.fatal with
      | true =>
        cases others.eq_of_fatal hends
        rw [hends] at hfatal
        rw [Work.after, if_pos hfatal.symm] at hstep hshared
        refine ⟨[⟨.ordinary start, verdict⟩], ⟨?_, by simpa [failures_cons] using herrors, fun _ => ?_⟩, hfirst []⟩
        · rw [hshared]
          exact .next hstep .none
        · rw [hshared]
          rfl
      | false =>
        rw [hends] at hfatal
        rw [after_of_not_isFatal hfatal.symm] at hstep hshared
        obtain ⟨attempts, ⟨hsteps, herrors', hqueue⟩, rfl⟩ := ih rfl hends (start + 1)
        rw [show c.shared = shared from hshared] at hsteps
        exact ⟨_ :: attempts,
          ⟨.next hstep hsteps, by rw [herrors', herrors, failures_cons, append_assoc], hqueue⟩, hfirst attempts⟩

/-- A round of draining is a step. -/
theorem reaches_round (hidle : b.fatal = true → b.shared.cache.queue = []) (hof : b.shared.cache.IsOf module)
    (h : Round (·.shared.cache) (fun cache b => { b with shared := { b.shared with cache } })
      (lowerInstance module (module.globals.map (·.lower module.name))) b b') :
    ∃ attempt, Reaches module [] b [attempt] b' ∧ attempt.ordinary? = none := by
  obtain ⟨place, i, _, hnext, h⟩ := h
  obtain ⟨queue, hqueue, hplace, rfl⟩ := next?_cases hnext
  obtain ⟨d, _, hd, -⟩ := hof.made i (mem_of_getElem? hplace)
  have hgoes : b.fatal = false := by
    cases hfatal : b.fatal with
    | false => rfl
    | true =>
      rw [hidle hfatal] at hqueue
      cases hqueue
  have hlowered : ∃ result c, lowerInstance module (module.globals.map (·.lower module.name)) i
        { b with shared := { b.shared with cache := { b.shared.cache with queue } } } = (.ok result, c) ∧
      b'.errors = c.errors ∧ b'.fatal = c.fatal ∧
      ∀ verdict, result = verdict.toOption → b'.shared = c.shared.settled place verdict := by
    rcases h with h | ⟨f, c, h, rfl⟩
    · refine ⟨none, b', h, rfl, rfl, fun verdict hverdict => ?_⟩
      cases verdict with
      | ok => cases hverdict
      | error => rfl
    · refine ⟨some f, c, h, rfl, rfl, fun verdict hverdict => ?_⟩
      cases verdict <;> cases hverdict
      rfl
  obtain ⟨_, c, hc, herrors', hfatal', hshared'⟩ := hlowered
  unfold lowerInstance at hc
  rw [hd] at hc
  obtain ⟨_, verdict, shared, hname, htried, hverdict, heffect⟩ :=
    tries_of_lowerOrRecord (b := { b with shared := ⟨b.shared.pool, { b.shared.cache with queue }⟩ }) hgoes hc
  obtain ⟨herrors, hfatal, hshared⟩ := heffect (.specialized i.key)
  have hafter : Work.after ⟨.specialized i.key, verdict⟩ ⟨[], shared.settled place verdict⟩ = ⟨[], b'.shared⟩ := by
    rw [hshared' verdict hverdict, hshared]
    cases verdict with
    | ok => rfl
    | error =>
      unfold Work.after
      split <;> rfl
  have hstep := Step.specialized hnext hd hname htried
  rw [hafter] at hstep
  refine ⟨⟨.specialized i.key, verdict⟩, ⟨.next hstep .none, ?_, fun hends => ?_⟩, rfl⟩
  · rw [herrors', herrors, failures_cons]
    simp
  · have hdone := isDone_after_of_isFatal (hfatal ▸ hfatal' ▸ hends) ⟨[], shared.settled place verdict⟩
    rw [hafter] at hdone
    exact hdone.2

theorem Reaches.trans (h : Reaches module ordinary b attempts b')
    (h' : Reaches module [] b' attempts' c) : Reaches module ordinary b (attempts ++ attempts') c :=
  ⟨h.1.append h'.1, by rw [h'.2.1, h.2.1, filterMap_append, append_assoc], h'.2.2⟩

theorem reaches_lowerInstances {result ordinary start procedures} (hstart : start.shared.cache.IsOf module)
    (hb : ∃ attempts, Reaches module ordinary start attempts b ∧ attempts.filterMap (·.ordinary?) = procedures)
    (h : lowerInstances module (module.globals.map (·.lower module.name)) b = (.ok result, b')) :
    (∃ attempts, Reaches module ordinary start attempts b' ∧ attempts.filterMap (·.ordinary?) = procedures) ∧
      b'.shared.cache.queue = [] := by
  unfold lowerInstances at h
  generalize hdrain : InstanceCache.drain _ _ _ _ b = outcome at h
  obtain ⟨drained, c⟩ := outcome
  dsimp only at h
  split at h
  · rename_i hqueue
    cases h
    refine ⟨?_, isEmpty_iff.mp hqueue⟩
    refine drain_invariant (I := fun c : Build => ∃ attempts, Reaches module ordinary start attempts c ∧
      attempts.filterMap (·.ordinary?) = procedures) (fun c c' ⟨attempts, hc, hprocedures⟩ hround => ?_) hb hdrain
    obtain ⟨_, hreaches, hnone⟩ := reaches_round hc.2.2 (hc.1.isOf hstart) hround
    exact ⟨_, hc.trans hreaches, by rw [filterMap_append, hprocedures]; simp [hnone]⟩
  · cases drained <;> cases h

end Lower

/-- A build that meets no internal error is a run, and comes to what the run has lowered and refused. -/
theorem Source.Module.run_of_lower {module limits outcome} (h : module.lower limits = .ok outcome) :
    ∃ attempts final fatal, module.Builds limits attempts final ∧
      outcome = Build.outcome module (attempts.filterMap (·.ordinary?))
        ⟨final.shared, attempts.filterMap (·.failure?), fatal⟩ := by
  rw [lower_eq] at h
  obtain ⟨_, -, htaken⟩ := takesOrdinary_lowerOrdinary module (module.globals.map (·.lower module.name))
    module.functions (.start module limits)
  generalize lowerOrdinary module _ module.functions _ = ordinary at h htaken
  obtain ⟨fault | _, b⟩ := ordinary
  · cases h
  · dsimp only at h
    rcases hinstances : lowerInstances module (module.globals.map (·.lower module.name)) b with ⟨_ | u, b'⟩
    · rw [hinstances] at h
      cases h
    · rw [hinstances] at h
      cases h
      obtain ⟨⟨attempts, ⟨hsteps, herrors, -⟩, rfl⟩, hqueue⟩ := reaches_lowerInstances
        ⟨rfl, fun i hi => absurd hi not_mem_nil⟩ (htaken.reaches rfl rfl 0) hinstances
      refine ⟨attempts, _, b'.fatal, ⟨hsteps, rfl, hqueue⟩, ?_⟩
      rw [← show b'.errors = attempts.filterMap (·.failure?) from herrors]

end Retarget
