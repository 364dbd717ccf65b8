import Retarget.Proofs.Lower.Assembly

/-!
# What a build reports

The run of a build is determined by the module, and the errors of the build are the refusals of the run: one for
every function that was taken up and refused, in the order in which they were taken up. What is reported for an
ordinary function does not change with the body of another one (`lower_reports_each_function`).
-/
namespace Retarget

open Lower InstanceCache List

/-- The module with another body for the function at a place. -/
def Source.Module.withBody (module : Source.Module) (place : Nat) (body : List Source.Statement) : Source.Module :=
  { module with functions := module.functions.modify place fun d => { d with body } }

namespace Lower

variable {module : Source.Module} {w u v : Work} {attempt : Attempt} {attempts : List Attempt}

/-! ## There is one run -/

theorem Tries.unique (h : Tries ctx symbol a verdict b)
    (h' : Tries ctx symbol a verdict' b') : verdict = verdict' ∧ b = b' := by
  obtain ⟨t, hresult, rfl⟩ := h
  obtain ⟨_, hresult', rfl⟩ := h'
  rw [hresult] at hresult'
  obtain ⟨hverdict, rfl⟩ := Prod.mk.inj hresult'
  refine ⟨?_, rfl⟩
  cases verdict <;> cases verdict' <;> cases hverdict <;> rfl

theorem Step.unique (h : Step module w attempt u) (h' : Step module w attempt' v) : attempt = attempt' ∧ u = v := by
  cases h with
  | ordinary named tried =>
    cases h' with
    | ordinary named' tried' =>
      rw [named] at named'
      cases named'
      obtain ⟨rfl, rfl⟩ := tried.unique tried'
      exact ⟨rfl, rfl⟩
  | specialized next found named tried =>
    cases h' with
    | specialized next' found' named' tried' =>
      rw [next] at next'
      cases next'
      rw [found] at found'
      cases found'
      rw [named] at named'
      cases named'
      obtain ⟨rfl, rfl⟩ := tried.unique tried'
      exact ⟨rfl, rfl⟩

theorem Work.IsDone.not_step (hw : w.IsDone) : ¬ Step module w attempt u := by
  intro h
  cases h with
  | ordinary => cases hw.1
  | specialized next =>
    rw [next?_of_queue_eq_nil hw.2] at next
    cases next

theorem Steps.eq_of_isDone (h : Steps module w attempts u) (hw : w.IsDone) : attempts = [] ∧ u = w := by
  cases h with
  | none => exact ⟨rfl, rfl⟩
  | next first => exact absurd first hw.not_step

theorem Steps.unique (h : Steps module w attempts u) (hu : u.IsDone) (h' : Steps module w attempts' v)
    (hv : v.IsDone) : attempts' = attempts ∧ v = u := by
  induction h generalizing attempts' with
  | none => exact h'.eq_of_isDone hu
  | next first _ ih =>
    cases h' with
    | none => exact absurd first hv.not_step
    | next first' others' =>
      obtain ⟨rfl, rfl⟩ := first.unique first'
      obtain ⟨rfl, rfl⟩ := ih hu others'
      exact ⟨rfl, rfl⟩

end Lower

namespace InstanceCache

variable {templates : List Source.Declaration} {c c' : InstanceCache}

theorem Asked.requested (h : Asked templates c c') : c.Requested c' := by
  induction h with
  | none => exact .refl c
  | request _ _ request ih =>
    obtain ⟨-, -, -, rfl⟩ | ⟨-, -, -, rfl⟩ | ⟨_, -, -, -, -, rfl⟩ := instantiate_cases request
    · exact ih
    · exact ih
    · exact ih.trans ⟨[_], rfl, by simp [made], rfl⟩

/-- No instance is asked for under the key of another one. -/
theorem Asked.nodup_keys (h : Asked templates c c') (hc : c.keys.Nodup) : c'.keys.Nodup := by
  induction h with
  | none => exact hc
  | request _ _ request ih =>
    obtain ⟨-, -, -, rfl⟩ | ⟨-, -, -, rfl⟩ | ⟨_, hnew, -, -, -, rfl⟩ := instantiate_cases request
    · exact ih
    · exact ih
    · rw [keys, reserved, map_append, nodup_append]
      refine ⟨ih, nodup_singleton _, ?_⟩
      rintro key hkey _ (_ | ⟨_, ⟨⟩⟩) rfl
      exact find?_eq_none.mp hnew hkey

theorem Requested.keys_prefix (h : c.Requested c') : c.keys <+: c'.keys := by
  obtain ⟨new, hinstances, -⟩ := h
  exact ⟨new.map (·.key), by rw [keys, keys, hinstances, map_append]⟩

/-- Those instances wait that come after the first so many. -/
def WaitsFrom (taken : Nat) (c : InstanceCache) : Prop :=
  taken ≤ c.instances.length ∧ c.queue = List.range' taken (c.instances.length - taken)

theorem WaitsFrom.requested (hc : c.WaitsFrom taken) (h : c.Requested c') : c'.WaitsFrom taken := by
  obtain ⟨hle, hqueue⟩ := hc
  obtain ⟨new, hinstances, -, hqueue'⟩ := h
  have hlen : c'.instances.length = c.instances.length + new.length := by rw [hinstances, length_append]
  refine ⟨by omega, ?_⟩
  have hjoin := range'_append_1 (s := taken) (m := c.instances.length - taken) (n := new.length)
  rw [Nat.add_sub_cancel' hle] at hjoin
  rw [hqueue', hqueue, hjoin, hlen]
  congr 1
  omega

theorem WaitsFrom.next (hc : c.WaitsFrom taken) (h : c.next? = some (place, i, rest)) :
    c.keys[taken]? = some i.key ∧ rest.WaitsFrom (taken + 1) ∧ rest.keys = c.keys := by
  obtain ⟨_, hqueue, hplace, rfl⟩ := next?_cases h
  obtain ⟨hle, hrange⟩ := hc
  rw [hqueue] at hrange
  cases hcount : c.instances.length - taken with
  | zero =>
    rw [hcount] at hrange
    cases hrange
  | succ count =>
    rw [hcount, range'_succ] at hrange
    obtain ⟨rfl, rfl⟩ := List.cons.inj hrange
    refine ⟨getElem?_keys hplace, ⟨?_, ?_⟩, rfl⟩
    · show place + 1 ≤ c.instances.length
      omega
    · show range' (place + 1) count = range' (place + 1) (c.instances.length - (place + 1))
      congr 1
      omega

end InstanceCache

namespace Lower

variable {module : Source.Module} {w u v : Work} {attempt : Attempt} {attempts : List Attempt}

theorem Shared.keys_settled (b : Shared) (place : Nat) (verdict : Except Diagnostic Procedure) :
    (b.settled place verdict).cache.keys = b.cache.keys := by
  cases verdict with
  | ok => exact keys_complete _ _ _
  | error => rfl

theorem Shared.waitsFrom_settled {b : Shared} (hb : b.cache.WaitsFrom taken) (place : Nat)
    (verdict : Except Diagnostic Procedure) : (b.settled place verdict).cache.WaitsFrom taken := by
  cases verdict with
  | ok => simpa [InstanceCache.WaitsFrom, Shared.settled, complete] using hb
  | error => exact hb

theorem keys_after (attempt : Attempt) (w : Work) : (w.after attempt).shared.cache.keys = w.shared.cache.keys := by
  unfold Work.after
  split <;> rfl

/-- A step adds keys at the end, and no key twice. -/
theorem Step.keys (h : Step module w attempt u) :
    w.shared.cache.keys <+: u.shared.cache.keys ∧ (w.shared.cache.keys.Nodup → u.shared.cache.keys.Nodup) := by
  cases h with
  | ordinary _ tried =>
    rw [keys_after]
    exact ⟨tried.asked.requested.keys_prefix, tried.asked.nodup_keys⟩
  | specialized next _ _ tried =>
    obtain ⟨_, -, -, rfl⟩ := InstanceCache.next?_cases next
    rw [keys_after, Shared.keys_settled]
    exact ⟨tried.asked.requested.keys_prefix, tried.asked.nodup_keys⟩

section
variable (h : Steps module w attempts u)
include h

theorem Steps.keys :
    w.shared.cache.keys <+: u.shared.cache.keys ∧ (w.shared.cache.keys.Nodup → u.shared.cache.keys.Nodup) := by
  induction h with
  | none => exact ⟨prefix_refl _, id⟩
  | next first _ ih => exact ⟨first.keys.1.trans ih.1, ih.2 ∘ first.keys.2⟩

/-! ## The order of a run -/

/-- Nothing is lowered after a refusal for instances without end. -/
theorem Steps.not_isFatal_dropLast : ∀ a ∈ attempts.dropLast, a.isFatal = false := by
  induction h with
  | none => simp
  | @next w u v a attempts first others ih =>
    cases hfatal : a.isFatal with
    | true =>
      have hdone : u.IsDone := by cases first <;> exact isDone_after_of_isFatal hfatal _
      obtain ⟨rfl, -⟩ := others.eq_of_isDone hdone
      simp
    | false =>
      intro b hb
      cases attempts with
      | nil => cases hb
      | cons =>
        rcases mem_cons.mp hb with rfl | hb
        · exact hfatal
        · exact ih b hb

/-- Only the last refusal can be one for instances without end. -/
theorem Steps.not_isFatal_failures :
    ∀ d ∈ (attempts.filterMap (·.failure?)).dropLast, d.isFatal = false := by
  have hmild : ∀ d ∈ attempts.dropLast.filterMap (·.failure?), d.isFatal = false := fun d hd => by
    obtain ⟨a, ha, hfailure⟩ := mem_filterMap.mp hd
    simpa [Attempt.isFatal, hfailure] using h.not_isFatal_dropLast a ha
  intro d hd
  rcases eq_nil_or_concat attempts with rfl | ⟨_, last, rfl⟩
  · cases hd
  · rw [concat_eq_append, dropLast_concat] at hmild
    rw [concat_eq_append, filterMap_append] at hd
    cases hlast : last.failure? with
    | none => exact hmild d (by simpa [hlast] using mem_of_mem_dropLast hd)
    | some => exact hmild d (by simpa [hlast] using hd)

/-- Ordinary functions come first and in their order, then the instances in the order of their keys; all of
them are taken up unless the build was broken off. -/
theorem Steps.jobs (taken : Nat) (hw : w.shared.cache.WaitsFrom taken) :
    ∃ places keys, attempts.map (·.job) = places.map .ordinary ++ keys.map .specialized ∧
      places <+: w.ordinary.map Prod.snd ∧ keys <+: u.shared.cache.keys.drop taken ∧
      ((∀ a ∈ attempts, a.isFatal = false) → u.IsDone →
        places = w.ordinary.map Prod.snd ∧ keys = u.shared.cache.keys.drop taken) := by
  induction h generalizing taken with
  | @none w =>
    refine ⟨[], [], rfl, nil_prefix, nil_prefix, fun _ hdone => ?_⟩
    have hall : w.shared.cache.instances.length ≤ taken := by
      have hlength := congrArg length hw.2
      rw [hdone.2, length_range', length_nil] at hlength
      omega
    rw [hdone.1, drop_eq_nil_of_le (by rwa [InstanceCache.keys, length_map])]
    exact ⟨rfl, rfl⟩
  | @next w u v a _ first others ih =>
    cases first with
    | @ordinary d place _ _ b _ verdict _ tried =>
      cases hfatal : Attempt.isFatal ⟨.ordinary place, verdict⟩ with
      | true =>
        obtain ⟨rfl, rfl⟩ := others.eq_of_isDone (isDone_after_of_isFatal hfatal _)
        refine ⟨[place], [], rfl, by simp, nil_prefix, fun hclean => ?_⟩
        rw [hclean _ mem_cons_self] at hfatal
        cases hfatal
      | false =>
        rw [after_of_not_isFatal hfatal] at ih
        obtain ⟨places, keys, hjobs, hplaces, hkeys, hall⟩ := ih taken (hw.requested tried.asked.requested)
        refine ⟨place :: places, keys, by simp [hjobs], by simpa using hplaces, hkeys, fun hclean hdone => ?_⟩
        obtain ⟨rfl, rfl⟩ := hall (fun a ha => hclean a (.tail _ ha)) hdone
        exact ⟨rfl, rfl⟩
    | @specialized shared b place i _ d _ verdict next _ _ tried =>
      obtain ⟨hkey, hrest, hsame⟩ := hw.next next
      have hgrown : shared.cache.keys <+: v.shared.cache.keys := by
        have hb := tried.asked.requested.keys_prefix
        rw [hsame] at hb
        have hv := others.keys.1
        rw [keys_after, Shared.keys_settled] at hv
        exact hb.trans hv
      have hfirst : v.shared.cache.keys.drop taken = i.key :: v.shared.cache.keys.drop (taken + 1) := by
        obtain ⟨_, hmore⟩ := hgrown
        have hget : v.shared.cache.keys[taken]? = some i.key := by
          rw [← hmore, getElem?_append_left (List.getElem?_eq_some_iff.mp hkey).1, hkey]
        obtain ⟨hlt, hget⟩ := List.getElem?_eq_some_iff.mp hget
        rw [drop_eq_getElem_cons hlt, hget]
      cases hfatal : Attempt.isFatal ⟨.specialized i.key, verdict⟩ with
      | true =>
        obtain ⟨rfl, rfl⟩ := others.eq_of_isDone (isDone_after_of_isFatal hfatal _)
        refine ⟨[], [i.key], rfl, nil_prefix, ?_, fun hclean => ?_⟩
        · rw [hfirst]
          simp
        · rw [hclean _ mem_cons_self] at hfatal
          cases hfatal
      | false =>
        rw [after_of_not_isFatal hfatal] at ih
        obtain ⟨places, keys, hjobs, hplaces, hkeys, hall⟩ :=
          ih (taken + 1) (Shared.waitsFrom_settled (hrest.requested tried.asked.requested) place verdict)
        have hnone : places = [] := prefix_nil.mp hplaces
        subst hnone
        refine ⟨[], i.key :: keys, by simpa using hjobs, nil_prefix, ?_, fun hclean hdone => ?_⟩
        · rw [hfirst]
          exact cons_prefix_cons.mpr ⟨rfl, hkeys⟩
        · obtain ⟨-, rfl⟩ := hall (fun a ha => hclean a (.tail _ ha)) hdone
          exact ⟨rfl, hfirst.symm⟩

end

/-! ## Reports on ordinary functions -/

theorem Step.ordinary_subset (h : Step module w attempt u) : u.ordinary ⊆ w.ordinary := by
  cases h <;> unfold Work.after <;> split <;> simp

theorem Steps.reportOn?_of_not_mem (h : Steps module w attempts u) (hplace : place ∉ w.ordinary.map Prod.snd) :
    attempts.filterMap (·.reportOn? place) = [] := by
  induction h with
  | none => rfl
  | @next w u v a _ first _ ih =>
    have hother : a.job ≠ .ordinary place := by
      cases first with
      | ordinary =>
        rintro ⟨⟩
        exact hplace mem_cons_self
      | specialized => exact fun hjob => nomatch hjob
    rw [filterMap_cons, Attempt.reportOn?, if_neg hother]
    exact ih fun hmem => hplace (map_subset _ first.ordinary_subset hmem)

/-- What a whole build reports on an ordinary function is what the function is refused for with what happens to be
shared when its turn comes. -/
theorem Steps.reportOn? (h : Steps module w attempts u) (hdone : u.IsDone)
    (hclean : ∀ a ∈ attempts, a.isFatal = false) (hw : w.shared.cache.IsOf module)
    (hplaces : (w.ordinary.map Prod.snd).Nodup) (hd : (d, place) ∈ w.ordinary) :
    ∃ name a verdict b, Symbol.text ⟨module.name, d.name, []⟩ = .ok name ∧ a.cache.IsOf module ∧
      Tries (module.context d name []) ⟨module.name, d.name, []⟩ a verdict b ∧
      (Attempt.mk (.ordinary place) verdict).isFatal = false ∧
      attempts.filterMap (·.reportOn? place) = (Attempt.mk (.ordinary place) verdict).failure?.toList := by
  induction h with
  | none =>
    rw [hdone.1] at hd
    cases hd
  | @next w u v a attempts first others ih =>
    have hfatal := hclean a mem_cons_self
    have hclean' : ∀ b ∈ attempts, b.isFatal = false := fun b hb => hclean b (.tail _ hb)
    have hof := first.isOf hw
    cases first with
    | @ordinary d' place' _ shared b name verdict named tried =>
      rw [after_of_not_isFatal hfatal] at others ih hof
      obtain ⟨hnew, hrest⟩ := nodup_cons.mp hplaces
      rcases mem_cons.mp hd with heq | hd
      · cases heq
        refine ⟨name, shared, verdict, b, named, hw, tried, hfatal, ?_⟩
        rw [filterMap_cons, others.reportOn?_of_not_mem hnew, Attempt.reportOn?, if_pos rfl]
        cases (Attempt.mk (.ordinary place) verdict).failure? <;> rfl
      · have hother : place' ≠ place := fun heq => hnew (mem_map.mpr ⟨_, hd, heq.symm⟩)
        rw [filterMap_cons, Attempt.reportOn?, if_neg (by simpa using hother)]
        exact ih hdone hclean' hof hrest hd
    | specialized => cases hd

/-- A function is refused for the same in two builds of modules with the same heads, if neither is broken off. -/
theorem Tries.failure?_eq {m} (h : m.SameHeads m') {a a'}
    (ha : a.cache.IsOf m) (ha' : a'.cache.IsOf m') (htried : Tries (m.context d name bindings) symbol a verdict b)
    (htried' : Tries (m'.context d name bindings) symbol a' verdict' b')
    (hfatal : (Attempt.mk job verdict).isFatal = false) (hfatal' : (Attempt.mk job verdict').isFatal = false) :
    (Attempt.mk job verdict).failure? = (Attempt.mk job verdict').failure? := by
  obtain ⟨t, hresult, -⟩ := htried
  obtain ⟨_, hresult', -⟩ := htried'
  have hcontext : m'.context d name bindings = (m.context d name bindings).within m' := by
    rw [Source.Module.context, h.globals, h.name]
    rfl
  have hmatches := mirrors_lowerFunction (m.context d name bindings) h symbol ⟨a, .empty⟩ ⟨a', .empty⟩
    ⟨⟨rfl, rfl, rfl, rfl⟩, ha, ha'⟩
  rw [hcontext] at hresult'
  rw [hresult, hresult'] at hmatches
  have hmild : ∀ {verdict : Except Diagnostic Procedure} {e : Abort}, (Attempt.mk job verdict).isFatal = false →
      verdict.mapError .refused = .error e → e.isSevere = false := fun {verdict e} hfatal herror => by
    cases verdict with
    | ok => cases herror
    | error =>
      cases herror
      exact hfatal
  generalize hy : verdict.mapError Abort.refused = y at hmatches
  generalize hy' : verdict'.mapError Abort.refused = y' at hmatches
  cases hmatches with
  | value | refusal =>
    cases verdict <;> cases hy
    cases verdict' <;> cases hy'
    rfl
  | left severe =>
    rw [hmild hfatal hy] at severe
    cases severe
  | right severe =>
    rw [hmild hfatal' hy'] at severe
    cases severe

end Lower

namespace Source.Module

variable {module : Module} {limits : InstantiationLimits}

theorem mem_ordinary :
    (d, place) ∈ module.ordinary ↔ module.functions[place]? = some d ∧ d.typeParameters.isEmpty = true := by
  rw [Module.ordinary, mem_filter, mk_mem_zipIdx_iff_getElem?]

theorem nodup_places (module : Module) : (module.ordinary.map Prod.snd).Nodup := by
  have hsublist : Sublist (module.ordinary.map Prod.snd) (module.functions.zipIdx.map Prod.snd) := filter_sublist.map _
  rw [zipIdx_map_snd] at hsublist
  exact Nodup.sublist hsublist nodup_range'

theorem sameHeads_withBody (module : Module) (g : Nat) (body : List Statement) :
    module.SameHeads (module.withBody g body) := by
  refine ⟨rfl, rfl, forall₂_iff_get.mpr ⟨by simp [withBody], fun place hlt hlt' => ?_⟩⟩
  simp only [withBody, get_eq_getElem, getElem_modify]
  split <;> rfl

theorem mem_ordinary_withBody (hplace : place ≠ g) :
    (d, place) ∈ (module.withBody g body).ordinary ↔ (d, place) ∈ module.ordinary := by
  have hsame : (module.withBody g body).functions[place]? = module.functions[place]? :=
    getElem?_modify_ne _ _ (Ne.symm hplace)
  rw [mem_ordinary, mem_ordinary, hsame]

/-- The body of a function has no part in what is reported for another ordinary function. -/
theorem Builds.reportOn?_withBody (h : module.Builds limits attempts final)
    (h' : (module.withBody g body).Builds limits attempts' final') (hclean : ∀ a ∈ attempts, a.isFatal = false)
    (hclean' : ∀ a ∈ attempts', a.isFatal = false) (hplace : place ≠ g) :
    attempts.filterMap (·.reportOn? place) = attempts'.filterMap (·.reportOn? place) := by
  have hempty : ∀ m : Module, (empty m.name limits).IsOf m := fun m => ⟨rfl, fun i hi => absurd hi not_mem_nil⟩
  by_cases hordinary : ∃ d, (d, place) ∈ module.ordinary
  · obtain ⟨d, hd⟩ := hordinary
    obtain ⟨_, a, _, b, hname, ha, htried, hfatal, hreport⟩ :=
      h.1.reportOn? h.2 hclean (hempty _) module.nodup_places hd
    obtain ⟨_, _, _, _, hname', ha', htried', hfatal', hreport'⟩ :=
      h'.1.reportOn? h'.2 hclean' (hempty _) (nodup_places _) ((mem_ordinary_withBody hplace).mpr hd)
    cases hname.symm.trans hname'
    rw [hreport, hreport', htried.failure?_eq (module.sameHeads_withBody g body) ha ha' htried' hfatal hfatal']
  · have hnone : ∀ m : Module, (∀ d, (d, place) ∉ m.ordinary) → place ∉ m.ordinary.map Prod.snd := by
      intro m hm hmem
      obtain ⟨⟨d, _⟩, hd, rfl⟩ := mem_map.mp hmem
      exact hm d hd
    rw [h.1.reportOn?_of_not_mem (hnone _ fun d hd => hordinary ⟨d, hd⟩),
      h'.1.reportOn?_of_not_mem (hnone _ fun d hd => hordinary ⟨d, (mem_ordinary_withBody hplace).mp hd⟩)]

/-- The errors of a build are the refusals of its run. -/
theorem builds_of_lower (h : module.lower limits = .ok outcome) :
    ∃ attempts final, module.Builds limits attempts final ∧
      (attempts.filterMap (·.failure?) = [] → ∃ p, outcome = .ok p) ∧
      (attempts.filterMap (·.failure?) ≠ [] → outcome = .error (attempts.filterMap (·.failure?))) := by
  obtain ⟨attempts, final, _, hbuilds, rfl⟩ := run_of_lower h
  exact ⟨attempts, final, hbuilds, fun hnone => ⟨_, if_neg (by simp [hnone])⟩,
    fun hsome => if_pos (by simpa using hsome)⟩

section
variable (h : module.Builds limits attempts final)
include h

theorem Builds.unique
    (h' : module.Builds limits attempts' final') : attempts' = attempts ∧ final' = final :=
  h.1.unique h.2 h'.1 h'.2

theorem Builds.jobs :
    ∃ places keys, attempts.map (·.job) = places.map .ordinary ++ keys.map .specialized ∧
      places <+: module.ordinary.map Prod.snd ∧ keys <+: final.shared.cache.keys ∧
      ((∀ a ∈ attempts, a.isFatal = false) →
        places = module.ordinary.map Prod.snd ∧ keys = final.shared.cache.keys) := by
  obtain ⟨places, keys, hjobs, hplaces, hkeys, hall⟩ := h.1.jobs 0 ⟨Nat.zero_le _, rfl⟩
  exact ⟨places, keys, hjobs, hplaces, hkeys, fun hclean => hall hclean h.2⟩

theorem Builds.nodup_jobs : (attempts.map (·.job)).Nodup := by
  obtain ⟨_, _, hjobs, hplaces, hkeys, -⟩ := h.jobs
  rw [hjobs, nodup_append]
  refine ⟨(module.nodup_places.sublist hplaces.sublist).map fun _ _ h => Job.ordinary.inj h,
    ((h.1.keys.2 nodup_nil).sublist hkeys.sublist).map fun _ _ h => Job.specialized.inj h, ?_⟩
  rintro _ hplace _ hkey rfl
  obtain ⟨_, -, rfl⟩ := mem_map.mp hplace
  obtain ⟨_, -, ⟨⟩⟩ := mem_map.mp hkey

end

/-- The errors of a build are one for each function that was taken up and refused: the ordinary functions in the
order of declaration, then the instances in the order of first request. Only the last of them can be a refusal for
instances without end, and nothing is taken up after it. If there is no such refusal, what is reported for an
ordinary function does not depend on the body of another one. -/
theorem lower_reports_each_function (module : Source.Module) (limits : InstantiationLimits) (outcome : Outcome Program)
    (h : module.lower limits = .ok outcome) :
    ∃ attempts final, module.Builds limits attempts final ∧
      (∀ attempts' final', module.Builds limits attempts' final' → attempts' = attempts ∧ final' = final) ∧
      ((∃ errors, outcome = .error errors) ↔ ∃ a ∈ attempts, a.failure?.isSome = true) ∧
      (∀ errors, outcome = .error errors → errors = attempts.filterMap (·.failure?) ∧
        ∀ d ∈ errors.dropLast, d.isFatal = false) ∧
      (attempts.map (·.job)).Nodup ∧
      (∃ places keys, attempts.map (·.job) = places.map .ordinary ++ keys.map .specialized ∧
        places <+: module.ordinary.map Prod.snd ∧ keys <+: final.shared.cache.keys ∧
        ((∀ a ∈ attempts, a.isFatal = false) →
          places = module.ordinary.map Prod.snd ∧ keys = final.shared.cache.keys)) ∧
      (∀ a ∈ attempts.dropLast, a.isFatal = false) ∧
      ∀ g body attempts' final', (module.withBody g body).Builds limits attempts' final' →
        (∀ a ∈ attempts, a.isFatal = false) → (∀ a ∈ attempts', a.isFatal = false) → ∀ place, place ≠ g →
        attempts.filterMap (·.reportOn? place) = attempts'.filterMap (·.reportOn? place) := by
  obtain ⟨attempts, final, hbuilds, hnone, hsome⟩ := builds_of_lower h
  have hfailures : attempts.filterMap (·.failure?) ≠ [] ↔ ∃ a ∈ attempts, a.failure?.isSome = true := by
    simp [filterMap_eq_nil_iff, Option.isSome_iff_ne_none]
  refine ⟨attempts, final, hbuilds, fun _ _ => hbuilds.unique, ?_, fun errors herrors => ?_, hbuilds.nodup_jobs,
    hbuilds.jobs, hbuilds.1.not_isFatal_dropLast, fun g body attempts' final' hbuilds' hclean hclean' place hplace =>
      hbuilds.reportOn?_withBody hbuilds' hclean hclean' hplace⟩
  · rw [← hfailures]
    refine ⟨fun ⟨errors, herrors⟩ hempty => ?_, fun hany => ⟨_, hsome hany⟩⟩
    obtain ⟨p, hp⟩ := hnone hempty
    rw [hp] at herrors
    cases herrors
  · by_cases hempty : attempts.filterMap (·.failure?) = []
    · obtain ⟨p, hp⟩ := hnone hempty
      rw [hp] at herrors
      cases herrors
    · rw [hsome hempty] at herrors
      cases herrors
      exact ⟨rfl, hbuilds.1.not_isFatal_failures⟩

/-- A function that asks for an instance, one that is refused, and a template whose instance is refused. -/
def troubled : Source.Module where
  name := "m"
  functions := [
    ⟨"twin", ["T"], [⟨"x", .parameter "T"⟩], .void,
      [.expression (.binary "**" (.identifier "x" .u8 none) (.identifier "x" .u8 none) .u8 none) none], false, none⟩,
    ⟨"main", [], [], .void,
      [.expression (.call (.generic "twin" [.u8]) [.number 1 .u8 none] .void none) none], false, none⟩,
    ⟨"bad", [], [], .void, [.unknown "goto"], false, none⟩]
  globals := []

theorem troubled_reports_each_function :
    ∃ attempts final, troubled.Builds Ledger.twoInstances attempts final ∧
      attempts.filterMap (·.failure?) = [.unsupportedOperation "m_bad" "statement goto" none,
        .unsupportedOperation "m_twin$u8" "operator **" none] ∧
      ∀ body attempts' final', (troubled.withBody 1 body).Builds Ledger.twoInstances attempts' final' →
        (∀ a ∈ attempts', a.isFatal = false) →
        attempts.filterMap (·.reportOn? 2) = attempts'.filterMap (·.reportOn? 2) := by
  have hlower : troubled.lower Ledger.twoInstances = .ok (.error [.unsupportedOperation "m_bad" "statement goto" none,
      .unsupportedOperation "m_twin$u8" "operator **" none]) := by decide +kernel
  obtain ⟨attempts, final, hbuilds, -, -, herrors, -, -, -, hsame⟩ :=
    lower_reports_each_function troubled Ledger.twoInstances _ hlower
  have hfailures := (herrors _ rfl).1
  have hclean : ∀ a ∈ attempts, a.isFatal = false := fun a ha => by
    cases hfailure : a.failure? with
    | none => simp [Attempt.isFatal, hfailure]
    | some diagnostic =>
      have hmem : diagnostic ∈ attempts.filterMap (·.failure?) := mem_filterMap.mpr ⟨a, ha, hfailure⟩
      rw [← hfailures] at hmem
      have hmild : ∀ d ∈ [Diagnostic.unsupportedOperation "m_bad" "statement goto" none,
        .unsupportedOperation "m_twin$u8" "operator **" none], d.isFatal = false := by decide
      simp [Attempt.isFatal, hfailure, hmild diagnostic hmem]
  exact ⟨attempts, final, hbuilds, hfailures.symm, fun body attempts' final' hbuilds' hclean' =>
    hsame 1 body attempts' final' hbuilds' hclean hclean' 2 (by decide)⟩

end Source.Module

end Retarget
