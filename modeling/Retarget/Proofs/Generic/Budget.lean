import Retarget.Proofs.Generic.Cache

/-!
# How long a drain can take

A drain goes on as long as anything waits, and lowering an instance may ask for new ones. Requests only make
new instances within the limits, so every round uses up some of what is left, and the bound on rounds is
never met.
-/
namespace Retarget.InstanceCache

open List

/-! ## Draining without a bound -/

variable {σ ε : Type} {get : σ → InstanceCache} {set : InstanceCache → σ → σ}
  {lower : Instance → σ → Except ε (Option Procedure) × σ} {s t u : σ}

/-- A drain that goes on until nothing waits or lowering fails: how many instances it takes up, and where it
ends. -/
inductive Drains (get : σ → InstanceCache) (set : InstanceCache → σ → σ)
    (lower : Instance → σ → Except ε (Option Procedure) × σ) : σ → Nat → Except ε Unit × σ → Prop
  | done {s : σ} (idle : (get s).queue = []) : Drains get set lower s 0 (.ok (), s)
  | fails {s t : σ} {place : Nat} {i : Instance} {rest : InstanceCache} {e : ε}
      (next : (get s).next? = some (place, i, rest)) (lowered : lower i (set rest s) = (.error e, t)) :
      Drains get set lower s 1 (.error e, t)
  | round {s t : σ} {rounds : Nat} {result : Except ε Unit × σ} (first : Round get set lower s t)
      (others : Drains get set lower t rounds result) : Drains get set lower s (rounds + 1) result

theorem next?_of_queue_eq_nil {c : InstanceCache} (h : c.queue = []) : c.next? = none := by
  unfold next?
  rw [h]

theorem Round.next?_ne_none (h : Round get set lower s t) : (get s).next? ≠ none := by
  obtain ⟨_, i, _, hnext, -⟩ := h
  simp [hnext]

theorem Round.not_fails (h : Round get set lower s t) {place i rest e} (hnext : (get s).next? = some (place, i, rest))
    (hlower : lower i (set rest s) = (.error e, u)) : False := by
  obtain ⟨_, _, _, hnext', h⟩ := h
  rw [hnext] at hnext'
  cases hnext'
  rw [hlower] at h
  rcases h with h | ⟨_, w, h, -⟩ <;> cases h

theorem Round.eq (h : Round get set lower s t) (h' : Round get set lower s u) : t = u := by
  obtain ⟨_, i, _, hnext, h⟩ := h
  obtain ⟨_, _, _, hnext', h'⟩ := h'
  rw [hnext] at hnext'
  cases hnext'
  rcases h with h | ⟨proc, v, h, rfl⟩ <;> rcases h' with h' | ⟨proc', v', h', rfl⟩ <;> rw [h] at h' <;>
    cases h' <;> rfl

/-- There is one way to drain a cache. -/
theorem Drains.unique {n m} {result result' : Except ε Unit × σ} (h : Drains get set lower s n result)
    (h' : Drains get set lower s m result') : n = m ∧ result = result' := by
  induction h generalizing m result' with
  | done idle =>
    cases h' with
    | done => exact ⟨rfl, rfl⟩
    | fails next => simp [next?_of_queue_eq_nil idle] at next
    | round first => exact absurd (next?_of_queue_eq_nil idle) first.next?_ne_none
  | fails next lowered =>
    cases h' with
    | done idle => simp [next?_of_queue_eq_nil idle] at next
    | fails next' lowered' =>
      rw [next] at next'
      cases next'
      rw [lowered] at lowered'
      cases lowered'
      exact ⟨rfl, rfl⟩
    | round first => exact (first.not_fails next lowered).elim
  | round first _ ih =>
    cases h' with
    | done idle => exact absurd (next?_of_queue_eq_nil idle) first.next?_ne_none
    | fails next lowered => exact (first.not_fails next lowered).elim
    | round first' others =>
      cases first.eq first'
      obtain ⟨rfl, rfl⟩ := ih others
      exact ⟨rfl, rfl⟩

theorem Drains.idle {n result} (h : Drains get set lower s n result) (hok : result.1 = .ok ()) :
    (get result.2).queue = [] := by
  induction h with
  | done idle => exact idle
  | fails => cases hok
  | round _ _ ih => exact ih hok

/-! ## Requests -/

/-- Requests for instances of the templates were made. -/
inductive Asked (templates : List Source.Declaration) (c : InstanceCache) : InstanceCache → Prop
  | none : Asked templates c c
  | request {a b : InstanceCache} {template : Nat} {declaration : Source.Declaration} {typeArguments : List Ty}
      {result : Except Diagnostic Instance} (before : Asked templates c a)
      (found : templates[template]? = some declaration)
      (request : a.instantiate template declaration typeArguments = .ok (result, b)) : Asked templates c b

theorem Asked.trans {templates a b c} (hab : Asked templates a b) (hbc : Asked templates b c) :
    Asked templates a c := by
  induction hbc with
  | none => exact hab
  | request _ found request ih => exact .request ih found request

/-- As many elements as there are classes of at most `most` of them. -/
theorem length_le_mul {l : List Instance} {classes most} (hclass : ∀ i ∈ l, i.template < classes)
    (hcount : ∀ template, l.countP (·.template == template) ≤ most) : l.length ≤ classes * most := by
  induction classes generalizing l with
  | zero =>
    cases l with
    | nil => simp
    | cons i => exact absurd (hclass i mem_cons_self) (Nat.not_lt_zero _)
  | succ classes ih =>
    have hrest := @ih (l.filter fun i => !(i.template == classes)) (fun i hi => ?_) fun template => ?_
    · have hsplit := l.length_eq_countP_add_countP (·.template == classes)
      have hlast := hcount classes
      rw [Nat.succ_mul]
      rw [← countP_eq_length_filter] at hrest
      simp only [Bool.not_eq_true] at hsplit
      have hsame : l.countP (fun i => !(i.template == classes)) =
          l.countP (fun i => decide ((i.template == classes) = false)) :=
        countP_congr fun i _ => by simp
      omega
    · obtain ⟨hi, hne⟩ := mem_filter.mp hi
      have := hclass i hi
      simp only [Bool.not_eq_true', beq_eq_false_iff_ne] at hne
      omega
    · exact Nat.le_trans filter_sublist.countP_le (hcount template)

theorem le_ofNat (a b : Nat) : (Number.ofNat a).le (.ofNat b) = decide (a ≤ b) := by
  by_cases h : a ≤ b <;>
    simp [Number.le, Number.lt, Number.eq, Number.ofNat, Number.twoTo_zero, h] <;> omega

theorem instances_ofNat {limits : InstantiationLimits} {most} (h : limits.maxInstancesPerTemplate.value = .ofNat most) :
    limits.instances = most := by
  simp [InstantiationLimits.instances, h, Number.ofNat, Number.below, Number.twoTo_zero]

/-- The instances are within the limits, for a number of templates. -/
structure Bounded (templates most : Nat) (c : InstanceCache) : Prop where
  bounds : c.limits.maxInstancesPerTemplate.value = .ofNat most
  known : ∀ i ∈ c.instances, i.template < templates
  count : ∀ template, c.instances.countP (·.template == template) ≤ most
  places : ∀ place ∈ c.queue, place < c.instances.length

def budget (templates most : Nat) (c : InstanceCache) : Nat :=
  templates * most - c.instances.length + c.queue.length

namespace Bounded

variable {templates : List Source.Declaration} {c c' : InstanceCache} {most : Nat}

theorem empty {module limits} (count : Nat) (h : limits.maxInstancesPerTemplate.value = .ofNat most) :
    (empty module limits).Bounded count most := by
  constructor <;> simp [InstanceCache.empty, h]

theorem length_le {count} (hc : c.Bounded count most) : c.instances.length ≤ count * most :=
  length_le_mul hc.known hc.count

theorem queue_eq_nil {count} (hc : c.Bounded count most) (h : c.next? = none) : c.queue = [] := by
  unfold next? at h
  cases hqueue : c.queue with
  | nil => rfl
  | cons place =>
    have hplace := hc.places place (hqueue ▸ mem_cons_self)
    rw [hqueue] at h
    simp [getElem?_eq_getElem hplace] at h

theorem budget_pos {count : Nat} (h : c.next? ≠ none) : 0 < c.budget count most := by
  have hqueue : c.queue ≠ [] := mt next?_of_queue_eq_nil h
  exact Nat.add_pos_right _ (length_pos_iff.mpr hqueue)

theorem clear {count} (hc : c.Bounded count most) : c.clear.Bounded count most :=
  { hc with places := fun _ h => absurd h not_mem_nil }

theorem next {count} (hc : c.Bounded count most) {place i} (h : c.next? = some (place, i, c')) :
    c'.Bounded count most ∧ c'.budget count most < c.budget count most := by
  obtain ⟨_, hqueue, -, rfl⟩ := next?_cases h
  refine ⟨{ hc with places := fun place hplace => hc.places place (hqueue ▸ .tail _ hplace) }, ?_⟩
  unfold budget
  rw [hqueue, length_cons]
  exact Nat.lt_succ_self _

theorem complete {count} (hc : c.Bounded count most) (place : Nat) (proc : Procedure) :
    (c.complete place proc).Bounded count most ∧
      (c.complete place proc).budget count most = c.budget count most := by
  have htemplates : (c.complete place proc).instances.map (·.template) = c.instances.map (·.template) :=
    map_complete (fun _ _ => rfl) c place proc
  have hlen : (c.complete place proc).instances.length = c.instances.length := by
    rw [← length_map (·.template), htemplates, length_map]
  have hmem : ∀ {template}, template ∈ (c.complete place proc).instances.map (·.template) →
      template < count := fun h => by
    obtain ⟨i, hi, rfl⟩ := mem_map.mp (htemplates ▸ h)
    exact hc.known i hi
  refine ⟨⟨hc.bounds, fun i hi => hmem (mem_map_of_mem hi), fun template => ?_, fun n hn => ?_⟩, ?_⟩
  · have hcount := hc.count template
    rw [← Function.comp_def (· == template) Instance.template, ← countP_map] at hcount ⊢
    rwa [htemplates]
  · rw [hlen]
    exact hc.places n hn
  · unfold budget
    rw [hlen]
    rfl

/-- A request uses up as much of what may still come as it puts into the queue. -/
theorem instantiate (hc : c.Bounded templates.length most) {template decl typeArgs result}
    (hfound : templates[template]? = some decl) (h : c.instantiate template decl typeArgs = .ok (result, c')) :
    c'.Bounded templates.length most ∧ c'.budget templates.length most ≤ c.budget templates.length most := by
  obtain ⟨i, -, -, rfl⟩ | ⟨_, -, -, rfl⟩ | ⟨names, -, hrefusal, -, -, rfl⟩ := instantiate_cases h
  · exact ⟨hc, Nat.le_refl _⟩
  · exact ⟨hc, Nat.le_refl _⟩
  · have hroom := (of_refusal?_eq_none hrefusal).2.2
    rw [hc.bounds, le_ofNat, decide_eq_false_iff_not, Nat.not_le] at hroom
    have hmade : (c.reserved (c.made template decl typeArgs names)).Bounded templates.length most := by
      refine ⟨hc.bounds, ?_, fun other => ?_, ?_⟩
      · refine forall_mem_append.mpr ⟨hc.known, forall_mem_singleton.mpr ?_⟩
        exact (List.getElem?_eq_some_iff.mp hfound).1
      · have hother := hc.count other
        show (c.instances ++ [_]).countP _ ≤ most
        rw [countP_append, countP_singleton]
        by_cases hsame : template = other
        · subst hsame
          split <;> omega
        · rw [if_neg (by simpa [made] using hsame)]
          exact hother
      · refine forall_mem_append.mpr ⟨fun place hplace => ?_, forall_mem_singleton.mpr ?_⟩
        · have := hc.places place hplace
          simp only [reserved, length_append, length_singleton]
          omega
        · simp [reserved]
    have hlength := hmade.length_le
    refine ⟨hmade, ?_⟩
    simp only [budget, reserved, length_append, length_singleton] at hlength ⊢
    omega

theorem asked (hc : c.Bounded templates.length most) (h : Asked templates c c') :
    c'.Bounded templates.length most ∧ c'.budget templates.length most ≤ c.budget templates.length most := by
  induction h with
  | none => exact ⟨hc, Nat.le_refl _⟩
  | request _ found request ih =>
    obtain ⟨hbounded, hle⟩ := ih.1.instantiate found request
    exact ⟨hbounded, Nat.le_trans hle ih.2⟩

end Bounded

/-- A drain in which every round uses up some of the budget needs no more rounds than that, and the bound on
rounds is not met. -/
theorem drains_drain {I : σ → Prop} {count most : Nat} (hbounded : ∀ s, I s → (get s).Bounded count most)
    (hround : ∀ s t, I s → Round get set lower s t → I t ∧ (get t).budget count most < (get s).budget count most)
    (hs : I s) :
    ∃ n ≤ (get s).budget count most, Drains get set lower s n (drain get set lower ((get s).capacity count) s) := by
  have hbudget : (get s).budget count most ≤ (get s).capacity count := by
    rw [budget, capacity, instances_ofNat (hbounded s hs).bounds]
    omega
  generalize (get s).capacity count = rounds at hbudget ⊢
  induction rounds generalizing s with
  | zero =>
    have hnext : (get s).next? = none := by
      by_contra hnext
      exact absurd (Bounded.budget_pos hnext) (Nat.not_lt.mpr hbudget)
    exact ⟨0, Nat.zero_le _, .done ((hbounded s hs).queue_eq_nil hnext)⟩
  | succ rounds ih =>
    obtain ⟨hnext, heq⟩ | ⟨_, i, _, e, t, hnext, hlower, heq⟩ | ⟨t, hst, heq⟩ :=
      drain_cases get set lower rounds s <;> rw [heq]
    · exact ⟨0, Nat.zero_le _, .done ((hbounded s hs).queue_eq_nil hnext)⟩
    · exact ⟨1, Bounded.budget_pos (by simp [hnext]), .fails hnext hlower⟩
    · obtain ⟨ht, hless⟩ := hround s t hs hst
      obtain ⟨n, hn, hdrains⟩ := ih ht (by omega)
      exact ⟨n + 1, by omega, .round hst hdrains⟩

end Retarget.InstanceCache
