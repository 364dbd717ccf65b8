import Retarget.Proofs.Generic.Mangling
import Retarget.Proofs.Lower.Requests

/-!
# Bodies do not show through

While a function is lowered, it shares strings and instances with all others, and how far they have come differs
from build to build. Nothing of this shows in what the function is refused for: of another function it sees no
more than its head, and an instance has the same symbol whether it is there already or not. So two builds of
modules that declare the same functions lower one body alike, until one of them is broken off as a whole.
-/
namespace Retarget

/-! ## Instances -/

/-- What makes an instance is in the heads. -/
theorem Instance.IsMade.of_sameHeads {i : Instance} (hi : i.IsMade m) (h : m.SameHeads m') : i.IsMade m' := by
  obtain ⟨d, names, hd, hlen, hbindings, hnames, hsym⟩ := hi
  obtain ⟨_, hd', hsame⟩ := h.getElem? hd
  rw [hsame] at hd'
  exact ⟨_, names, hd', hlen, hbindings, hnames, by rw [hsym, h.name]⟩

namespace InstanceCache

variable {module : Source.Module} {c c' : InstanceCache} {template : Nat} {declaration : Source.Declaration}
  {typeArguments : List Ty}

/-- A request that is turned down breaks off the build. -/
theorem isFatal_of_instantiate (h : c.instantiate template decl typeArgs = .ok (.error diag, c')) :
    diag.isFatal = true := by
  unfold instantiate at h
  split at h
  · cases h
  · obtain ⟨refusal, -, h⟩ := Checked.bind_eq_ok.mp h
    cases refusal with
    | some =>
      cases h
      rfl
    | none =>
      obtain ⟨_, -, h⟩ := Checked.bind_eq_ok.mp h
      cases h

theorem IsOf.asked (hc : c.IsOf module) (h : Asked module.functions c c') : c'.IsOf module := by
  induction h with
  | none => exact hc
  | request _ found request ih => exact (ih.instantiate found request).1

end InstanceCache

namespace Lower

/-! ## Two runs -/

/-- The build is broken off as a whole. -/
def Abort.isSevere : Abort → Bool
  | .refused diagnostic => diagnostic.isFatal
  | .fault _ => true

/-- States of two builds; what is shared has only its module in common. -/
structure State.Alike (m m' : Source.Module) (s s' : State) : Prop where
  draft : s.draft.Alike s'.draft
  cache : s.shared.cache.IsOf m
  other : s'.shared.cache.IsOf m'

section
variable {α β : Type}

/-- The runs come to related values or to the same refusal, unless one of them breaks off its build. -/
inductive Matches (m m' : Source.Module) (R : α → α → Prop) :
    Except Abort α × State → Except Abort α × State → Prop
  | value {a a' : α} {t t' : State} (related : R a a') (states : t.Alike m m' t') :
      Matches m m' R (.ok a, t) (.ok a', t')
  | refusal {diagnostic : Diagnostic} {t t' : State} :
      Matches m m' R (.error (.refused diagnostic), t) (.error (.refused diagnostic), t')
  | left {e : Abort} {t : State} {y : Except Abort α × State} (severe : e.isSevere = true) :
      Matches m m' R (.error e, t) y
  | right {e : Abort} {t' : State} {y : Except Abort α × State} (severe : e.isSevere = true) :
      Matches m m' R y (.error e, t')

/-- The actions match from all states that are alike. -/
def Mirrors (m m' : Source.Module) (R : α → α → Prop) (x x' : Lower α) : Prop :=
  ∀ s s', s.Alike m m' s' → Matches m m' R (x.result s) (x'.result s')

/-! ## Actions -/

variable {m m' : Source.Module} {R : α → α → Prop} {S : β → β → Prop}

theorem Mirrors.bindRelated {f f' : α → Lower β} (hx : Mirrors m m' R x x')
    (hf : ∀ a a', R a a' → Mirrors m m' S (f a) (f' a')) : Mirrors m m' S (x >>= f) (x' >>= f') := by
  intro s s' hs
  have hfirst := hx s s' hs
  rw [result_bind, result_bind]
  generalize x.result s = y at hfirst ⊢
  generalize x'.result s' = y' at hfirst ⊢
  cases hfirst with
  | value related states => exact hf _ _ related _ _ states
  | refusal => exact .refusal
  | left severe => exact .left severe
  | right severe => exact .right severe

theorem mirrors_pure (h : R a a') : Mirrors m m' R (pure a) (pure a') := fun _ _ hs => .value h hs

theorem mirrors_throw (e : Abort) : Mirrors m m' R (throw e) (throw e) := by
  intro s _ _
  cases e with
  | refused => exact .refusal
  | fault => exact .left rfl

theorem mirrors_intern (value : String) : Mirrors m m' (fun _ _ => True) (intern value) (intern value) := by
  have hrun : ∀ s, ∃ index t, (intern value).result s = (.ok index, t) ∧ t.draft = s.draft ∧
      t.shared.cache = s.shared.cache := fun s => by
    cases hfound : s.shared.pool.findIdx? (· == value) with
    | some index =>
      refine ⟨index, s, yields_intern.mpr ?_, rfl, rfl⟩
      have hmem : value ∈ s.shared.pool := by
        by_contra hnew
        rw [findIdx?_eq_none.mpr hnew] at hfound
        cases hfound
      rw [State.interned, if_pos hmem]
      exact ⟨hfound, rfl⟩
    | none =>
      refine ⟨s.shared.pool.length, s.interned value, yields_intern.mpr ⟨?_, rfl⟩, ?_, ?_⟩ <;>
      rw [State.interned, if_neg (findIdx?_eq_none.mp hfound)]
      simp [List.findIdx?_append, hfound]
  intro s s' hs
  obtain ⟨_, t, hresult, hdraft, hcache⟩ := hrun s
  obtain ⟨_, _, hresult', hdraft', hcache'⟩ := hrun s'
  rw [hresult, hresult']
  exact .value trivial ⟨hdraft ▸ hdraft' ▸ hs.draft, hcache ▸ hs.cache, hcache' ▸ hs.other⟩

end

/-- An instance has the same symbol in both builds: what it was asked for by decides it. -/
theorem mirrors_requestInstance {ctx} (h : ctx.module.SameHeads m')
    (hd : ctx.module.functions[place]? = some d) (hd' : m'.functions[place]? = some d') (typeArgs : List Ty) :
    Mirrors ctx.module m' Eq (requestInstance ctx place d typeArgs)
      (requestInstance (ctx.within m') place d' typeArgs) := by
  have hcheck : Mirrors ctx.module m' Eq (check (typeArgs.mapM (·.substitute ctx.bindings)))
      (check (typeArgs.mapM (·.substitute ctx.bindings))) := by
    cases typeArgs.mapM (·.substitute ctx.bindings)
    · exact mirrors_throw _
    · exact mirrors_pure rfl
  refine hcheck.bindRelated fun concrete _ hsame s s' hs => ?_
  cases hsame
  show Matches _ _ _
    ((check (s.shared.cache.instantiate place d concrete) >>= _).result s)
    ((check (s'.shared.cache.instantiate place d' concrete) >>= _).result s')
  cases hrequest : s.shared.cache.instantiate place d concrete with
  | error => exact .left rfl
  | ok answer =>
    cases hrequest' : s'.shared.cache.instantiate place d' concrete with
    | error => exact .right rfl
    | ok answer' =>
      obtain ⟨result, _⟩ := answer
      obtain ⟨result', _⟩ := answer'
      obtain ⟨hcache, hmade⟩ := hs.cache.instantiate hd hrequest
      obtain ⟨hcache', hmade'⟩ := hs.other.instantiate hd' hrequest'
      cases result with
      | error => exact .left (InstanceCache.isFatal_of_instantiate hrequest)
      | ok i =>
        cases result' with
        | error => exact .right (InstanceCache.isFatal_of_instantiate hrequest')
        | ok i' =>
          obtain ⟨hi, hkey⟩ := hmade i rfl
          obtain ⟨hi', hkey'⟩ := hmade' i' rfl
          exact .value ((hi.of_sameHeads h).symbol_eq hi' (hkey.trans hkey'.symm)) ⟨hs.draft, hcache, hcache'⟩

def mirroring {ctx : Context} {m' : Source.Module} (h : ctx.module.SameHeads m') : Congruence ctx m' where
  Holds R x x' := Mirrors ctx.module m' R x x'
  bindRelated := Mirrors.bindRelated
  related := mirrors_pure
  stop := mirrors_throw
  draft _ _ hs := .value hs.draft hs
  change hf _ _ hs := .value rfl { hs with draft := hf _ _ hs.draft }
  place := mirrors_intern
  heads := h
  request := mirrors_requestInstance h

/-- A function is refused alike in both modules. -/
theorem mirrors_lowerFunction (ctx : Context) (h : ctx.module.SameHeads m') (symbol : Symbol) :
    Mirrors ctx.module m' (fun _ _ => True) (lowerFunction ctx symbol) (lowerFunction (ctx.within m') symbol) :=
  (mirroring h).holds_lowerFunction symbol

end Lower

end Retarget
