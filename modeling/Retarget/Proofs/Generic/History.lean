import Mathlib.Data.List.Perm.Basic
import Retarget.Proofs.Generic.Budget

/-!
# Histories of a cache

A history is any sequence of requests, drains and clears. While a drain lowers an instance, the callback it
hands the instance to may make requests and clear the queue as it likes, so the queue grows and shrinks while
it is being emptied. A ledger is a cache together with the record of what was handed over and what was dropped.

What one request keeps (`perform_spec`) and so what one round of a drain keeps (`round_spec`) give what every
history keeps: `run_sound`, and with it `history_keeps_invariant`.
-/
namespace Retarget

open InstanceCache List Prod

structure Ledger where
  cache : InstanceCache
  /-- The instances handed over to be lowered, in order, with what came of each. -/
  handed : List (Instance.Key × Option Procedure)
  /-- The instances that a clear took out of the queue. -/
  dropped : List Instance.Key

inductive Request where
  | instantiate (template : Nat) (typeArguments : List Ty)
  | clear

/-- What is done with an instance that is handed over: the requests that are made meanwhile, and the body that
comes of it, if any. All that happened before may matter. -/
abbrev Callback := Instance → Ledger → List Request × Option Procedure

inductive Command where
  | request (request : Request)
  | drain (callback : Callback)

namespace Ledger

def start (module : String) (limits : InstantiationLimits) : Ledger := ⟨.empty module limits, [], []⟩

def perform (templates : List Source.Declaration) (s : Ledger) : Request → Ledger
  | .instantiate template typeArguments =>
    match templates[template]? with
    | none => s
    | some declaration =>
      match s.cache.instantiate template declaration typeArguments with
      | .ok (_, cache) => { s with cache }
      | .error _ => s
  | .clear => { s with cache := s.cache.clear, dropped := s.dropped ++ s.cache.waiting }

def handOver (templates : List Source.Declaration) (callback : Callback) (i : Instance) (s : Ledger) :
    Except Empty (Option Procedure) × Ledger :=
  let (requests, body) := callback i s
  (.ok body, requests.foldl (perform templates) { s with handed := s.handed ++ [(i.key, body)] })

def drain (templates : List Source.Declaration) (callback : Callback) (s : Ledger) : Except Empty Unit × Ledger :=
  InstanceCache.drain Ledger.cache (fun cache s => { s with cache }) (handOver templates callback)
    (s.cache.capacity templates.length) s

def execute (templates : List Source.Declaration) (s : Ledger) : Command → Ledger
  | .request request => s.perform templates request
  | .drain callback => (s.drain templates callback).2

def run (templates : List Source.Declaration) (history : List Command) (s : Ledger) : Ledger :=
  history.foldl (execute templates) s

/-- What came of an instance that was handed over. -/
def body (s : Ledger) (key : Instance.Key) : Option Procedure := (s.handed.find? (·.1 = key)).bind snd

/-- The instances are within the limits, and each one is handed over, waiting or dropped: those handed over
first and then those that wait, both in the order of first request. -/
structure Sound (templates : List Source.Declaration) (limits : InstantiationLimits) (most : Nat) (s : Ledger) :
    Prop where
  bounds : s.cache.limits = limits
  nodup : s.cache.keys.Nodup
  fits : ∀ i ∈ s.cache.instances, ∃ declaration, templates[i.template]? = some declaration ∧
    i.typeArguments.length = declaration.typeParameters.length ∧
    ∀ t ∈ i.typeArguments, limits.maxTypeDepth.value.lt (.ofNat t.nestingDepth) = false
  count : ∀ template, s.cache.instances.countP (·.template == template) ≤ most
  places : ∀ place ∈ s.cache.queue, place < s.cache.instances.length
  order : (s.handed.map fst ++ s.cache.waiting).Sublist s.cache.keys
  account : (s.handed.map fst ++ s.cache.waiting ++ s.dropped).Perm s.cache.keys

/-- Every instance has the body that came of it. -/
def Settled (s : Ledger) : Prop := ∀ i ∈ s.cache.instances, i.procedure = s.body i.key

/-- Only instances without a body were added, and nothing was handed over. -/
def Grows (s t : Ledger) : Prop :=
  t.handed = s.handed ∧ ∃ new, t.cache.instances = s.cache.instances ++ new ∧ ∀ i ∈ new, i.procedure = none

theorem Grows.refl (s : Ledger) : s.Grows s := ⟨rfl, [], by simp⟩

theorem Grows.trans {s : Ledger} (hst : s.Grows t) (htu : t.Grows u) : s.Grows u := by
  obtain ⟨hs, new, hnew, hnone⟩ := hst
  obtain ⟨ht, newer, hnewer, hnone'⟩ := htu
  refine ⟨ht.trans hs, new ++ newer, by rw [hnewer, hnew, append_assoc], fun i hi => ?_⟩
  rcases mem_append.mp hi with hi | hi
  · exact hnone i hi
  · exact hnone' i hi

/-! ## Requests -/

theorem waiting_reserved {c : InstanceCache} (i : Instance) (hplaces : ∀ place ∈ c.queue, place < c.instances.length) :
    (c.reserved i).waiting = c.waiting ++ [i.key] := by
  have hlen : c.keys.length = c.instances.length := by simp [InstanceCache.keys]
  have hkeys : (c.reserved i).keys = c.keys ++ [i.key] := by simp [InstanceCache.keys, reserved]
  have hold : c.queue.filterMap ((c.keys ++ [i.key])[·]?) = c.queue.filterMap (c.keys[·]?) := by
    refine filterMap_congr fun place hplace => ?_
    rw [getElem?_append_left (by rw [hlen]; exact hplaces place hplace)]
  have hnew : (c.keys ++ [i.key])[c.instances.length]? = some i.key := by
    rw [← hlen, getElem?_concat_length]
  unfold waiting
  rw [hkeys]
  show (c.queue ++ [c.instances.length]).filterMap _ = _
  rw [filterMap_append, hold]
  simp [hnew]

section
variable {templates : List Source.Declaration} {limits : InstantiationLimits} {most : Nat} {s t : Ledger}

theorem Sound.reserved (hs : s.Sound templates limits most) (htemplate : templates[template]? = some decl)
    (hnew : s.cache.find? template typeArgs = none)
    (hfits : s.cache.refusal? template decl typeArgs = .ok none)
    (hbounded : (s.cache.reserved (s.cache.made template decl typeArgs names)).Bounded templates.length
      most) :
    Sound templates limits most
      { s with cache := s.cache.reserved (s.cache.made template decl typeArgs names) } := by
  obtain ⟨hlen, hdepth, -⟩ := of_refusal?_eq_none hfits
  have hkey : (s.cache.made template decl typeArgs names).key = (template, typeArgs) := rfl
  have hkeys : (s.cache.reserved (s.cache.made template decl typeArgs names)).keys =
      s.cache.keys ++ [(template, typeArgs)] := by
    simp [InstanceCache.keys, InstanceCache.reserved, hkey]
  have hwaiting := waiting_reserved (s.cache.made template decl typeArgs names) hs.places
  have habsent := InstanceCache.find?_eq_none.mp hnew
  refine ⟨hs.bounds, ?nodup, ?fits, hbounded.count, hbounded.places, ?order, ?account⟩
  case nodup =>
    show (InstanceCache.keys _).Nodup
    rw [hkeys]
    exact Nodup.append hs.nodup (nodup_singleton _) (by simpa using habsent)
  case fits =>
    refine forall_mem_append.mpr ⟨hs.fits, forall_mem_singleton.mpr ?_⟩
    exact ⟨decl, htemplate, hlen, hs.bounds ▸ hdepth⟩
  case order =>
    show (s.handed.map fst ++ waiting _).Sublist (InstanceCache.keys _)
    rw [hkeys, hwaiting, hkey, ← append_assoc]
    exact hs.order.append (Sublist.refl _)
  case account =>
    show (s.handed.map fst ++ waiting _ ++ s.dropped).Perm (InstanceCache.keys _)
    rw [hkeys, hwaiting, hkey, ← append_assoc]
    refine .trans ?_ (hs.account.append_right _)
    rw [append_assoc, append_assoc _ s.dropped]
    exact Perm.append_left _ perm_append_comm

theorem Sound.cleared (hs : s.Sound templates limits most) :
    Sound templates limits most { s with cache := s.cache.clear, dropped := s.dropped ++ s.cache.waiting } :=
  { hs with
    places := by simp [clear]
    order := by simpa [clear, waiting, InstanceCache.keys] using (sublist_append_left _ _).trans hs.order
    account := by
      show (s.handed.map fst ++ [] ++ (s.dropped ++ s.cache.waiting)).Perm s.cache.keys
      rw [append_nil]
      refine .trans ?_ hs.account
      rw [append_assoc]
      exact Perm.append_left _ perm_append_comm }

/-! ## What is handed over -/

theorem waiting_of_next? {c : InstanceCache} (h : c.next? = some (place, i, rest)) :
    c.waiting = i.key :: rest.waiting ∧ rest.keys = c.keys := by
  obtain ⟨_, hqueue, hplace, rfl⟩ := next?_cases h
  have hkey : c.keys[place]? = some i.key := getElem?_keys hplace
  refine ⟨?_, rfl⟩
  unfold waiting
  rw [hqueue, filterMap_cons, hkey]
  rfl

theorem Sound.taken (hs : s.Sound templates limits most)
    (hnext : s.cache.next? = some (place, i, rest)) (body : Option Procedure) :
    Sound templates limits most { s with cache := rest, handed := s.handed ++ [(i.key, body)] } := by
  obtain ⟨hwaiting, _⟩ := waiting_of_next? hnext
  obtain ⟨queue, hqueue, _, rfl⟩ := next?_cases hnext
  have hhanded : (s.handed ++ [(i.key, body)]).map fst ++ waiting { s.cache with queue } =
      s.handed.map fst ++ s.cache.waiting := by
    rw [hwaiting, map_append, append_assoc]
    rfl
  refine { hs with places := fun other hother => ?_, order := ?order, account := ?account }
  · exact hs.places other (hqueue ▸ mem_cons_of_mem _ hother)
  case order =>
    show Sublist (_ ++ _) s.cache.keys
    rw [hhanded]
    exact hs.order
  case account =>
    show Perm (_ ++ _ ++ _) s.cache.keys
    rw [hhanded]
    exact hs.account

theorem Sound.not_handed (hs : s.Sound templates limits most)
    (hnext : s.cache.next? = some (place, i, rest)) : i.key ∉ s.handed.map fst := by
  have hnodup := hs.nodup.sublist hs.order
  rw [(waiting_of_next? hnext).1] at hnodup
  intro hi
  exact disjoint_of_nodup_append hnodup hi mem_cons_self

theorem find?_of_not_mem {α β : Type} [DecidableEq α] {entries : List (α × β)} {key} (hkey : key ∉ entries.map fst) :
    entries.find? (·.1 = key) = none :=
  find?_eq_none.mpr fun entry hentry heq => hkey (mem_map.mpr ⟨entry, hentry, by simpa using heq⟩)

theorem body_append (handed : List (Instance.Key × Option Procedure)) (key other : Instance.Key)
    (result : Option Procedure) (c : InstanceCache) (dropped : List Instance.Key) (hkey : key ∉ handed.map fst) :
    body ⟨c, handed ++ [(key, result)], dropped⟩ other =
      if key = other then result else body ⟨c, handed, dropped⟩ other := by
  unfold body
  rw [find?_append]
  by_cases h : key = other
  · subst h
    simp [find?_of_not_mem hkey]
  · simp [h]

theorem body_eq_none (hkey : key ∉ s.handed.map fst) : s.body key = none := by
  unfold body
  rw [find?_of_not_mem hkey]
  rfl

/-- Nothing came yet of an instance that is new. -/
theorem Sound.body_new (hs : s.Sound templates limits most) (ht : t.Sound templates limits most)
    (hnew : t.cache.instances = s.cache.instances ++ new) (hi : i ∈ new) : s.body i.key = none := by
  have habsent : i.key ∉ s.cache.keys := by
    have hnodup := ht.nodup
    unfold InstanceCache.keys at hnodup
    rw [hnew, map_append] at hnodup
    intro hin
    exact disjoint_of_nodup_append hnodup hin (mem_map_of_mem hi)
  exact body_eq_none fun h => habsent (hs.order.subset (mem_append_left _ h))

/-- What came of each instance once the requests are done: what came of the one in hand still has to be put in
its place, and the others have it. -/
theorem Settled.grown (hsettled : s.Settled) (hs : s.Sound templates limits most)
    (hnext : s.cache.next? = some (place, i, rest)) (ht : t.Sound templates limits most)
    (hgrows : Grows { s with cache := rest, handed := s.handed ++ [(i.key, result)] } t)
    (hj : t.cache.instances[n]? = some j) :
    t.body j.key = (if n = place then result else j.procedure) ∧ (n = place → j.procedure = none) := by
  obtain ⟨_, -, hplace, rfl⟩ := next?_cases hnext
  obtain ⟨hhanded, _, hnew, hnone⟩ := hgrows
  have hfresh := hs.not_handed hnext
  have hbody : ∀ key, t.body key = if i.key = key then result else s.body key := by
    intro key
    have := body_append s.handed i.key key result s.cache s.dropped hfresh
    unfold body at this ⊢
    rwa [hhanded]
  have hi : t.cache.instances[place]? = some i := by
    rw [hnew, getElem?_append_left (List.getElem?_eq_some_iff.mp hplace).1]
    exact hplace
  rw [hbody]
  by_cases hn : n = place
  · -- the instance in hand
    subst hn
    have heq : i = j := Option.some.inj (hi.symm.trans hj)
    subst heq
    refine ⟨by simp, fun _ => ?_⟩
    rw [hsettled i (mem_of_getElem? hplace), body_eq_none hfresh]
  · rw [if_neg hn]
    have hkey : i.key ≠ j.key := by
      -- two places have two keys
      intro heq
      have hi : t.cache.keys[place]? = some i.key := getElem?_keys hi
      have hj : t.cache.keys[n]? = some i.key := heq ▸ getElem?_keys hj
      exact hn ((getElem?_inj (List.getElem?_eq_some_iff.mp hj).1 ht.nodup).mp (hj.trans hi.symm))
    refine ⟨?_, fun h => absurd h hn⟩
    rw [if_neg hkey]
    rw [hnew] at hj
    rcases mem_append.mp (mem_of_getElem? hj) with hmem | hmem
    · exact (hsettled j hmem).symm
    · rw [hnone j hmem, hs.body_new ht hnew hmem]

/-! ## Steps -/

variable (hmost : limits.maxInstancesPerTemplate.value = .ofNat most)
include hmost

theorem Sound.bounded (hs : s.Sound templates limits most) :
    s.cache.Bounded templates.length most where
  bounds := hs.bounds ▸ hmost
  known := fun i hi => by
    obtain ⟨_, htemplate, -⟩ := hs.fits i hi
    exact (List.getElem?_eq_some_iff.mp htemplate).1
  count := hs.count
  places := hs.places

theorem perform_spec (hs : s.Sound templates limits most) (request : Request) :
    (s.perform templates request).Sound templates limits most ∧ s.Grows (s.perform templates request) ∧
      (s.perform templates request).cache.budget templates.length most ≤ s.cache.budget templates.length most := by
  cases request with
  | clear =>
    refine ⟨hs.cleared, ⟨rfl, [], by simp [perform, clear]⟩, ?_⟩
    simp [budget, perform, clear]
  | instantiate template typeArgs =>
    cases htemplate : templates[template]? with
    | none => simpa only [perform, htemplate] using ⟨hs, .refl s, Nat.le_refl _⟩
    | some decl =>
      cases hmade : s.cache.instantiate template decl typeArgs with
      | error => simpa only [perform, htemplate, hmade] using ⟨hs, .refl s, Nat.le_refl _⟩
      | ok answer =>
        obtain ⟨_, _⟩ := answer
        obtain ⟨hbounded, hbudget⟩ := (hs.bounded hmost).instantiate htemplate hmade
        simp only [perform, htemplate, hmade]
        obtain ⟨i, -, -, rfl⟩ | ⟨_, -, -, rfl⟩ | ⟨_, hnew, hfits, -, -, rfl⟩ :=
          instantiate_cases hmade
        · exact ⟨hs, .refl s, hbudget⟩
        · exact ⟨hs, .refl s, hbudget⟩
        · exact ⟨hs.reserved htemplate hnew hfits hbounded, ⟨rfl, [_], rfl, by simp [made]⟩, hbudget⟩

theorem foldl_perform_spec (requests : List Request) (hs : s.Sound templates limits most) :
    let t := requests.foldl (perform templates) s
    t.Sound templates limits most ∧ s.Grows t ∧
      t.cache.budget templates.length most ≤ s.cache.budget templates.length most := by
  induction requests generalizing s with
  | nil => exact ⟨hs, .refl s, Nat.le_refl _⟩
  | cons request _ ih =>
    obtain ⟨hone, hgrows, hbudget⟩ := perform_spec hmost hs request
    obtain ⟨hall, hgrows', hbudget'⟩ := ih hone
    exact ⟨hall, hgrows.trans hgrows', Nat.le_trans hbudget' hbudget⟩

theorem Sound.completed (hs : s.Sound templates limits most) (place : Nat) (proc : Procedure) :
    Sound templates limits most { s with cache := s.cache.complete place proc } := by
  have hkeys := s.cache.keys_complete place proc
  have hwaiting : (s.cache.complete place proc).waiting = s.cache.waiting := by
    unfold waiting
    rw [hkeys]
    rfl
  obtain ⟨hbounded, -⟩ := (hs.bounded hmost).complete place proc
  refine ⟨hs.bounds, hkeys ▸ hs.nodup, ?fits, hbounded.count, hbounded.places, ?order, ?account⟩
  case fits =>
    -- an instance with a body has the key that it had without one
    intro i hi
    have hkey : i.key ∈ s.cache.keys := hkeys ▸ mem_map_of_mem hi
    obtain ⟨old, hold, heq⟩ := mem_map.mp hkey
    obtain ⟨htemplate, hargs⟩ := Prod.mk.inj heq
    exact htemplate ▸ hargs ▸ hs.fits old hold
  case order =>
    show (s.handed.map fst ++ (s.cache.complete place proc).waiting).Sublist _
    rw [hwaiting, hkeys]
    exact hs.order
  case account =>
    show (s.handed.map fst ++ (s.cache.complete place proc).waiting ++ s.dropped).Perm _
    rw [hwaiting, hkeys]
    exact hs.account

theorem round_spec (hs : s.Sound templates limits most ∧ s.Settled)
    (hround : Round cache (fun cache s => { s with cache }) (handOver templates callback) s t) :
    (t.Sound templates limits most ∧ t.Settled) ∧
      t.cache.budget templates.length most < s.cache.budget templates.length most := by
  obtain ⟨hs, hsettled⟩ := hs
  obtain ⟨place, i, rest, hnext, hlower⟩ := hround
  unfold handOver at hlower
  rcases hcallback : callback i { s with cache := rest } with ⟨requests, result⟩
  simp only [hcallback] at hlower
  obtain ⟨hsound, hgrows, hbudget⟩ := foldl_perform_spec hmost requests (hs.taken hnext result)
  have hless := Nat.lt_of_le_of_lt hbudget ((hs.bounded hmost).next hnext).2
  rcases hlower with hlower | ⟨proc, u, hlower, rfl⟩
  · obtain ⟨hresult, rfl⟩ := Prod.mk.inj hlower
    cases hresult
    refine ⟨⟨hsound, fun j hj => ?_⟩, hless⟩
    obtain ⟨n, hn⟩ := mem_iff_getElem?.mp hj
    obtain ⟨hbody, hnone⟩ := hsettled.grown hs hnext hsound hgrows hn
    rw [hbody]
    split
    · exact hnone ‹_›
    · rfl
  · obtain ⟨hresult, rfl⟩ := Prod.mk.inj hlower
    cases hresult
    refine ⟨⟨hsound.completed hmost place proc, fun j hj => ?_⟩, ?_⟩
    · obtain ⟨n, hn⟩ := mem_iff_getElem?.mp hj
      obtain ⟨_, hold, rfl⟩ := getElem?_complete hn
      have hbody := (hsettled.grown hs hnext hsound hgrows hold).1
      by_cases h : place = n
      · subst h
        simp only [if_true] at hbody ⊢
        exact hbody.symm
      · simp only [h, Ne.symm h, if_false] at hbody ⊢
        exact hbody.symm
    · exact ((hsound.bounded hmost).complete place proc).2 ▸ hless

/-! ## Histories -/

/-- A drain comes to its end: it leaves nothing in the queue. -/
theorem drain_spec (hs : s.Sound templates limits most ∧ s.Settled) (callback : Callback) :
    ((s.drain templates callback).2.Sound templates limits most ∧ (s.drain templates callback).2.Settled) ∧
      (s.drain templates callback).2.cache.queue = [] := by
  have hround : ∀ u v : Ledger, u.Sound templates limits most ∧ u.Settled →
      Round cache (fun cache s => { s with cache }) (handOver templates callback) u v → _ :=
    fun u v hu huv => round_spec hmost hu huv
  obtain ⟨n, -, hdrains⟩ := drains_drain (fun u hu => hu.1.bounded hmost) hround hs
  have hidle := hdrains.idle
  rcases hdrain : s.drain templates callback with ⟨result, t⟩
  cases result with
  | error e => exact e.elim
  | ok =>
    unfold drain at hdrain
    rw [hdrain] at hidle
    exact ⟨drain_invariant (fun u v hu huv => (hround u v hu huv).1) hs hdrain, hidle rfl⟩

theorem execute_sound (hs : s.Sound templates limits most ∧ s.Settled) (command : Command) :
    (s.execute templates command).Sound templates limits most ∧ (s.execute templates command).Settled := by
  cases command with
  | drain callback => exact (drain_spec hmost hs callback).1
  | request request =>
    obtain ⟨hs, hsettled⟩ := hs
    obtain ⟨ht, ⟨hhanded, _, hnew, hnone⟩, -⟩ := perform_spec hmost hs request
    refine ⟨ht, fun i hi => ?_⟩
    have hbody : (s.perform templates request).body i.key = s.body i.key := by
      unfold body
      rw [hhanded]
    show i.procedure = (s.perform templates request).body i.key
    rw [hbody]
    rcases mem_append.mp (hnew ▸ hi) with hmem | hmem
    · exact hsettled i hmem
    · rw [hnone i hmem, hs.body_new ht hnew hmem]

theorem run_sound (history : List Command) (hs : s.Sound templates limits most ∧ s.Settled) :
    (run templates history s).Sound templates limits most ∧ (run templates history s).Settled := by
  induction history generalizing s with
  | nil => exact hs
  | cons command _ ih => exact ih (execute_sound hmost hs command)

omit hmost

theorem start_sound (module : String) (templates : List Source.Declaration) (limits : InstantiationLimits)
    (most : Nat) : (start module limits).Sound templates limits most ∧ (start module limits).Settled := by
  refine ⟨?_, fun i hi => absurd hi not_mem_nil⟩
  constructor <;> simp [start, empty, InstanceCache.keys, waiting]

/-! ## What a sound ledger says -/

theorem filterMap_of_sublist {α β : Type} [DecidableEq α] {entries : List (α × Option β)} {keys}
    (hsublist : (entries.map fst).Sublist keys) (hkeys : keys.Nodup) :
    keys.filterMap (fun key => (entries.find? (·.1 = key)).bind snd) = entries.filterMap snd := by
  induction keys generalizing entries with
  | nil =>
    cases entries with
    | nil => rfl
    | cons => cases hsublist
  | cons key keys ih =>
    obtain ⟨hkey, hrestKeys⟩ := nodup_cons.mp hkeys
    rcases sublist_cons_iff.mp hsublist with hsublist | ⟨_, hfirsts, hsublist⟩
    · -- nothing stands under the first key
      rw [filterMap_cons, find?_of_not_mem fun h => hkey (hsublist.subset h)]
      exact ih hsublist hrestKeys
    · cases entries with
      | nil => cases hfirsts
      | cons entry entries =>
        obtain ⟨rfl, rfl⟩ := cons.inj hfirsts
        have hrest : keys.filterMap (fun key => ((entry :: entries).find? (·.1 = key)).bind snd) =
            keys.filterMap fun key => (entries.find? (·.1 = key)).bind snd := by
          refine filterMap_congr fun other hother => ?_
          have hne : entry.1 ≠ other := fun h => hkey (h ▸ hother)
          rw [find?_cons_of_neg (by simpa using hne)]
        rw [filterMap_cons, filterMap_cons, hrest, ih hsublist hrestKeys,
          find?_cons_of_pos (by simp)]
        rfl

theorem Sound.lowered_eq (hs : s.Sound templates limits most) (hsettled : s.Settled) :
    s.cache.lowered = s.handed.filterMap snd := by
  calc s.cache.lowered = s.cache.instances.filterMap (fun i => s.body i.key) :=
        filterMap_congr hsettled
    _ = s.cache.keys.filterMap s.body := by rw [InstanceCache.keys, filterMap_map]; rfl
    _ = s.handed.filterMap snd :=
        filterMap_of_sublist ((sublist_append_left _ _).trans hs.order) hs.nodup

/-- With an empty queue every instance was either handed over once or dropped. -/
theorem Sound.count_handed (hs : s.Sound templates limits most) (hqueue : s.cache.queue = [])
    (hi : i ∈ s.cache.instances) : (s.handed.map fst).count i.key = if i.key ∈ s.dropped then 0 else 1 := by
  have hwaiting : s.cache.waiting = [] := by simp [waiting, hqueue]
  have haccount := hs.account
  rw [hwaiting, append_nil] at haccount
  have hnodup := haccount.nodup_iff.mpr hs.nodup
  have hmem : i.key ∈ s.handed.map fst ++ s.dropped :=
    haccount.mem_iff.mpr (mem_map_of_mem hi)
  split
  · rename_i hdropped
    exact count_eq_zero.mpr fun h => disjoint_of_nodup_append hnodup h hdropped
  · rename_i hdropped
    exact count_eq_one_of_mem (nodup_append.mp hnodup).1 ((mem_append.mp hmem).resolve_right hdropped)

/-- What holds of a cache after every history: keys are distinct and within the limits, instances are handed over at
most once and in the order of first request, a drain leaves only those out that were dropped, and the bodies are those
of the instances handed over, in that order. In every sound ledger, so inside of a drain too, a request for a key that
is there gives that instance and changes nothing, as does one that fails. -/
theorem history_keeps_invariant (module : String) (templates : List Source.Declaration)
    (limits : InstantiationLimits) (most : Nat) (hmost : limits.maxInstancesPerTemplate.value = .ofNat most)
    (history : List Command) :
    let s := run templates history (start module limits)
    s.cache.keys.Nodup ∧
    (∀ i ∈ s.cache.instances, ∃ declaration, templates[i.template]? = some declaration ∧
      i.typeArguments.length = declaration.typeParameters.length ∧
      ∀ t ∈ i.typeArguments, limits.maxTypeDepth.value.lt (.ofNat t.nestingDepth) = false) ∧
    (∀ template, s.cache.instances.countP (·.template == template) ≤ most) ∧
    s.Sound templates limits most ∧
    (∀ t : Ledger, t.Sound templates limits most →
      (∀ i ∈ t.cache.instances, ∀ declaration,
        t.cache.instantiate i.template declaration i.typeArguments = .ok (.ok i, t.cache)) ∧
      ∀ template declaration typeArguments diagnostic c,
        t.cache.instantiate template declaration typeArguments = .ok (.error diagnostic, c) → c = t.cache) ∧
    (s.handed.map fst).Sublist s.cache.keys ∧
    (∀ callback, let t := s.execute templates (.drain callback)
      t.cache.queue = [] ∧ ∀ i ∈ t.cache.instances,
        (t.handed.map fst).count i.key = if i.key ∈ t.dropped then 0 else 1) ∧
    s.cache.lowered = s.handed.filterMap snd := by
  intro s
  obtain ⟨hs, hsettled⟩ := run_sound hmost history (start_sound module templates limits most)
  refine ⟨hs.nodup, hs.fits, hs.count, hs, fun t ht => ⟨fun i hi declaration => ?_, ?_⟩,
    (sublist_append_left _ _).trans hs.order, fun callback => ?_, hs.lowered_eq hsettled⟩
  · unfold instantiate
    rw [find?_key ht.nodup hi]
    rfl
  · intro _ _ _ _ c h
    obtain ⟨i, -, hresult, -⟩ | ⟨-, -, -, rfl⟩ | ⟨_, -, -, -, hresult, -⟩ := instantiate_cases h
    · cases hresult
    · rfl
    · cases hresult
  · obtain ⟨⟨ht, -⟩, hqueue⟩ := drain_spec hmost ⟨hs, hsettled⟩ callback
    exact ⟨hqueue, fun i hi => ht.count_handed hqueue hi⟩

end

/-- A template that returns its argument. -/
def identity : Source.Declaration := ⟨"identity", ["T"], [⟨"x", .parameter "T"⟩], .parameter "T", [], false, none⟩

def twoInstances : InstantiationLimits := ⟨⟨8, "8"⟩, ⟨2, "2"⟩⟩

/-- Lowering the instance for bytes asks for the one for pointers to bytes, and for itself. -/
def asksForPointer : Callback := fun i _ =>
  (if i.typeArguments = [.u8] then [.instantiate 0 [.pointer .u8], .instantiate 0 [.u8]] else [], none)

theorem identity_history_keeps_invariant :
    let t := run [identity] [.request (.instantiate 0 [.u8])] (start "m" twoInstances) |>.execute [identity]
      (.drain asksForPointer)
    t.cache.keys = [(0, [.u8]), (0, [.pointer .u8])] ∧ t.dropped = [] ∧ t.cache.queue = [] ∧
    ∀ i ∈ t.cache.instances, (t.handed.map fst).count i.key = if i.key ∈ t.dropped then 0 else 1 :=
  ⟨rfl, rfl, (history_keeps_invariant "m" [identity] twoInstances 2 rfl
    [.request (.instantiate 0 [.u8])]).2.2.2.2.2.2.1 asksForPointer⟩

/-- A drain that no clear interrupts does not hand over an instance that a clear took out of the queue before. -/
theorem cleared_instance_not_handed :
    let s := run [identity] [.request (.instantiate 0 [.u8]), .request .clear, .drain fun _ _ => ([], none)]
      (start "m" twoInstances)
    ∃ i ∈ s.cache.instances, i.key ∉ s.handed.map fst := by
  refine ⟨_, mem_singleton_self _, ?_⟩
  exact not_mem_nil

end Ledger

end Retarget
