import Retarget.Proofs.Generic.Budget
import Retarget.Proofs.Lower.Congruence

/-!
# What lowering asks for

Whether it succeeds or not, all that lowering a function does to the cache of instances is to request
instances of the module's templates.
-/
namespace Retarget.Lower

open InstanceCache

/-- All that the action does to the cache is to request instances of the templates. -/
def Asks {α : Type} (templates : List Source.Declaration) (x : Lower α) : Prop :=
  ∀ s, InstanceCache.Asked templates s.shared.cache (x.result s).2.shared.cache

theorem Asks.bind {α β : Type} {x} {f : α → Lower β} (hx : x.Asks templates)
    (hf : ∀ s a, (x.result s).1 = .ok a → (f a).Asks templates) : (x >>= f).Asks templates := by
  intro s
  have hfirst := hx s
  have hsecond := hf s
  rw [result_bind]
  generalize x.result s = outcome at hfirst hsecond ⊢
  obtain ⟨e | a, t⟩ := outcome
  · exact hfirst
  · exact hfirst.trans (hsecond a rfl t)

theorem asks_intern (templates : List Source.Declaration) (value : String) : (intern value).Asks templates := by
  unfold intern
  refine Asks.bind (fun _ => .none) fun _ state _ => ?_
  dsimp only
  split <;> exact fun _ => .none

theorem asks_requestInstance {ctx} (hfound : ctx.module.functions[place]? = some decl)
    (typeArgs : List Ty) : (requestInstance ctx place decl typeArgs).Asks ctx.module.functions := by
  have hcheck : (check (typeArgs.mapM (·.substitute ctx.bindings))).Asks ctx.module.functions := fun s => by
    cases typeArgs.mapM (·.substitute ctx.bindings) <;> exact .none
  refine hcheck.bind fun _ concrete _ s => ?_
  show Asked _ _ ((check (s.shared.cache.instantiate place decl concrete) >>= _).result s).2.shared.cache
  cases hrequest : s.shared.cache.instantiate place decl concrete with
  | error => exact .none
  | ok answer =>
    obtain ⟨result, _⟩ := answer
    have hasked := Asked.request .none hfound hrequest
    cases result with
    | ok | error => exact hasked

/-- One run that only asks; what it comes to is related to something. -/
def asking (ctx : Context) : Congruence ctx ctx.module where
  Holds R x _ := x.Asks ctx.module.functions ∧ ∀ s a, (x.result s).1 = .ok a → ∃ a', R a a'
  bindRelated {_ _ R S x _ f f'} hx hf := by
    have hvalues : ∀ s a, (x.result s).1 = .ok a →
        (f a).Asks ctx.module.functions ∧ ∀ t b, ((f a).result t).1 = .ok b → ∃ b', S b b' := fun s a ha =>
      have ⟨a', hrelated⟩ := hx.2 s a ha
      hf a a' hrelated
    refine ⟨hx.1.bind fun s a ha => (hvalues s a ha).1, fun s b hb => ?_⟩
    have hsecond := hvalues s
    rw [result_bind] at hb
    generalize x.result s = outcome at hb hsecond
    obtain ⟨e | a, t⟩ := outcome
    · cases hb
    · exact (hsecond a rfl).2 t b hb
  related {_ _ a a'} h := ⟨fun _ => .none, fun _ b hb => by cases hb; exact ⟨a', h⟩⟩
  stop _ := ⟨fun _ => .none, fun _ _ h => nomatch h⟩
  draft := ⟨fun _ => .none, fun _ d _ => ⟨d, rfl, rfl, rfl, rfl⟩⟩
  change _ := ⟨fun _ => .none, fun _ _ _ => ⟨_, rfl⟩⟩
  place value := ⟨asks_intern _ value, fun _ index _ => ⟨index, trivial⟩⟩
  heads := .refl _
  request found _ _ := ⟨asks_requestInstance found _, fun _ _ _ => ⟨_, rfl⟩⟩

theorem asks_lowerFunction (ctx : Context) (symbol : Symbol) : (lowerFunction ctx symbol).Asks ctx.module.functions :=
  ((asking ctx).holds_lowerFunction symbol).1

end Retarget.Lower
