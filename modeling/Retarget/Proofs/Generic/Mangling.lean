import Retarget.Proofs.Assoc
import Retarget.Proofs.Generic.History
import Retarget.Proofs.Ty.ShortName

/-!
# Texts of instances

The symbol of an instance does not have its type arguments, but the types that its parameters got and the
arguments that no parameter mentions. Both together still tell the type arguments: a parameter's type is the
same for all instances but for what is bound in it. So the text of an instance is that of no other one, and
of no ordinary function (`texts_tell_instances_apart`).
-/
namespace Retarget

open Checked InstanceCache List Source String

namespace Ty

def SameName (a b : Ty) : Prop := ∃ name, a.shortName = .ok name ∧ b.shortName = .ok name

variable {a b type : Ty} {bindings bindings' : Assoc String Ty}

/-- What a type makes of two bindings has one name only if they bind alike what the type mentions. -/
theorem SameName.of_substitute (ha : type.substitute bindings = .ok a) (hb : type.substitute bindings' = .ok b)
    (hname : a.SameName b) {parameter} (hmentions : type.mentions parameter = true) :
    ∃ bound bound', bindings.get? parameter = some bound ∧ bindings'.get? parameter = some bound' ∧
      bound.SameName bound' := by
  induction type generalizing a b with
  | parameter name =>
    obtain rfl : name = parameter := by simpa [mentions] using hmentions
    unfold substitute at ha hb
    cases hbound : bindings.get? name with
    | none => simp [hbound] at ha
    | some =>
      cases hbound' : bindings'.get? name with
      | none => simp [hbound'] at hb
      | some =>
        rw [hbound] at ha
        rw [hbound'] at hb
        cases ha
        cases hb
        exact ⟨a, b, rfl, rfl, hname⟩
  | pointer _ ih | array _ _ ih =>
    obtain ⟨_, hinner, h⟩ := bind_eq_ok.mp ha
    cases h
    obtain ⟨_, hinner', h⟩ := bind_eq_ok.mp hb
    cases h
    obtain ⟨_, hna, hnb⟩ := hname
    refine ih hinner hinner' ?_ hmentions
    first
    | obtain ⟨rest, hrest, hname⟩ := shortName_pointer hna
      obtain ⟨_, hrest', hname'⟩ := shortName_pointer hnb
      exact ⟨rest, hrest, toList_injective (by simpa [hname] using hname') ▸ hrest'⟩
    | obtain ⟨rest, hrest, hname⟩ := shortName_array hna
      obtain ⟨_, hrest', hname'⟩ := shortName_array hnb
      exact ⟨rest, hrest, toList_injective (by simpa [hname] using hname') ▸ hrest'⟩
  | _ => cases hmentions

/-- A known type has a short name where what is bound in it has one. -/
theorem exists_shortName_of_substitute (hknown : type.IsKnown)
    (hbound : ∀ name bound, bindings.get? name = some bound → bound.IsPlain) (h : type.substitute bindings = .ok a) :
    ∃ name, a.shortName = .ok name := by
  induction type generalizing a with
  | parameter name =>
    unfold substitute at h
    cases hfound : bindings.get? name with
    | none => simp [hfound] at h
    | some =>
      rw [hfound] at h
      cases h
      exact (hbound name a hfound).exists_shortName
  | pointer _ ih | array _ _ ih =>
    obtain ⟨a, ha, h⟩ := bind_eq_ok.mp h
    cases h
    obtain ⟨_, hname⟩ := ih hknown ha
    exact ⟨_, by rw [shortName, hname]; rfl⟩
  | unknown => exact hknown.elim
  | _ =>
    cases h
    exact ⟨_, rfl⟩

theorem eq_of_forall₂_sameName (h : Forall₂ SameName as bs) (ha : ∀ a ∈ as, a.IsPlain)
    (hb : ∀ b ∈ bs, b.IsPlain) : as = bs := by
  induction h with
  | nil => rfl
  | cons hname _ ih =>
    obtain ⟨_, hna, hnb⟩ := hname
    rw [shortName_injective (ha _ (.head _)) (hb _ (.head _)) hna hnb, ih (fun a h => ha a (.tail _ h))
      (fun b h => hb b (.tail _ h))]

theorem forall₂_sameName (ha : Forall₂ (fun a name => a.shortName = .ok name) as names)
    (hb : Forall₂ (fun b name => b.shortName = .ok name) bs names) : Forall₂ SameName as bs := by
  induction ha generalizing bs with
  | nil =>
    cases hb
    exact .nil
  | cons hna _ ih =>
    cases hb with
    | cons hnb hb => exact .cons ⟨_, hna, hnb⟩ (ih hb)

end Ty

/-! ## Texts of symbols -/

namespace Symbol

variable {s s' : Symbol} {text : String}

theorem toList_text (h : s.text = .ok text) :
    ∃ names, Forall₂ (fun type name => type.shortName = .ok name) s.mangling names ∧
      text.toList = (s.module ++ "_").toList ++ ['$'].intercalate ((s.name :: names).map toList) := by
  obtain ⟨names, hnames, h⟩ := bind_eq_ok.mp h
  cases h
  refine ⟨names, forall₂_of_mapM hnames, ?_⟩
  rw [Text.join, toList_intercalate, map_cons, map_cons, toList_append]
  cases names with
  | nil => simp
  | cons => simp [List.intercalate_cons_cons]

/-- The text of a symbol tells its name and the short names of its types, given the module. -/
theorem sameName_of_text (h : s.text = .ok text) (h' : s'.text = .ok text) (hmodule : s.module = s'.module)
    (hs : '$' ∉ s.name.toList) (hs' : '$' ∉ s'.name.toList) :
    s.name = s'.name ∧ Forall₂ Ty.SameName s.mangling s'.mangling := by
  have hfree : ∀ {s : Symbol} {names}, '$' ∉ s.name.toList →
      Forall₂ (fun type name => type.shortName = .ok name) s.mangling names →
      ∀ part ∈ (s.name :: names).map toList, '$' ∉ part := by
    intro s _ hs hnames
    rw [map_cons, forall_mem_cons, forall_mem_map]
    refine ⟨hs, fun name hname => ?_⟩
    obtain ⟨_, -, hshort⟩ := exists_origin hnames hname
    exact Ty.dollar_not_mem_shortName hshort
  obtain ⟨names, hnames, htext⟩ := toList_text h
  obtain ⟨names', hnames', htext'⟩ := toList_text h'
  rw [htext, hmodule, append_cancel_left_eq] at htext'
  have hparts : (s.name :: names).map toList = (s'.name :: names').map toList := by
    rw [← splitOn_intercalate '$' (hfree hs hnames) (by simp), htext',
      splitOn_intercalate '$' (hfree hs' hnames') (by simp)]
  obtain ⟨hname, rfl⟩ := cons_eq_cons.mp (map_injective_iff.mpr (fun _ _ => toList_injective) hparts)
  exact ⟨hname, Ty.forall₂_sameName hnames hnames'⟩

end Symbol

/-! ## Manglings -/

section
variable {declaration : Declaration} {typeArguments typeArguments' names names' : List Ty}

/-- Whether the type of a parameter shows what the type parameter stands for. -/
def Source.Declaration.determines (declaration : Source.Declaration) (name : String) : Bool :=
  declaration.parameters.any (·.type.mentions name)

/-- The type arguments that the types of the parameters do not show. -/
def undetermined (declaration : Source.Declaration) (typeArguments : List Ty) : List Ty :=
  ((declaration.typeParameters.zip typeArguments).filter (!declaration.determines ·.1)).map Prod.snd

theorem mangling_eq_ok (h : mangling declaration typeArguments = .ok names) :
    ∃ types, Forall₂ (fun p type => p.type.substitute (bindTypeParameters declaration typeArguments) = .ok type)
        declaration.parameters types ∧
      names = types ++ undetermined declaration typeArguments := by
  obtain ⟨types, htypes, h⟩ := bind_eq_ok.mp h
  cases h
  exact ⟨types, forall₂_of_mapM htypes, rfl⟩

theorem mem_of_mem_undetermined (h : type ∈ undetermined declaration typeArguments) : type ∈ typeArguments := by
  obtain ⟨⟨_, _⟩, hentry, rfl⟩ := mem_map.mp h
  exact (of_mem_zip (mem_filter.mp hentry).1).2

/-- Of a parameter both lists have the type that it makes of its bindings. -/
theorem sameName_of_parameter {bindings bindings' params types types'}
    (h : Forall₂ (fun p type => p.type.substitute bindings = .ok type) params types)
    (h' : Forall₂ (fun p type => p.type.substitute bindings' = .ok type) params types')
    (hnames : Forall₂ Ty.SameName types types') {p : Source.Parameter} (hp : p ∈ params) :
    ∃ type type', p.type.substitute bindings = .ok type ∧ p.type.substitute bindings' = .ok type' ∧
      type.SameName type' := by
  induction h generalizing types' with
  | nil => cases hp
  | cons hfirst _ ih =>
    cases h' with
    | cons hfirst' h' =>
      cases hnames with
      | cons hname hnames =>
        rcases mem_cons.mp hp with rfl | hp
        · exact ⟨_, _, hfirst, hfirst', hname⟩
        · exact ih h' hnames hp

/-- Lists are equal if they have the same entries under some keys and, in order, under the others. -/
theorem eq_of_filter_zip {α β : Type} (selects : α → Bool) {keys : List α} {as bs : List β}
    (ha : as.length = keys.length) (hb : bs.length = keys.length)
    (hselected : ((keys.zip as).filter (selects ·.1)).map Prod.snd = ((keys.zip bs).filter (selects ·.1)).map Prod.snd)
    (hother : ∀ key a b, selects key = false → (key, a) ∈ keys.zip as → (key, b) ∈ keys.zip bs → a = b) : as = bs := by
  induction keys generalizing as bs with
  | nil => rw [length_eq_zero_iff.mp ha, length_eq_zero_iff.mp hb]
  | cons key keys ih =>
    obtain ⟨a, as, rfl⟩ := exists_cons_of_length_eq_add_one ha
    obtain ⟨b, bs, rfl⟩ := exists_cons_of_length_eq_add_one hb
    simp only [length_cons, Nat.add_right_cancel_iff] at ha hb
    have hrest : ∀ key a b, selects key = false → (key, a) ∈ keys.zip as → (key, b) ∈ keys.zip bs → a = b :=
      fun key a b hkey ha hb => hother key a b hkey (.tail _ ha) (.tail _ hb)
    cases hkey : selects key with
    | true =>
      simp only [zip_cons_cons, hkey, filter_cons_of_pos, map_cons, cons.injEq] at hselected
      rw [hselected.1, ih ha hb hselected.2 hrest]
    | false =>
      simp only [zip_cons_cons, hkey, Bool.false_eq_true, not_false_eq_true, filter_cons_of_neg] at hselected
      rw [hother key a b hkey (.head _) (.head _), ih ha hb hselected hrest]

theorem typeArguments_eq_of_sameName (hdistinct : declaration.typeParameters.Nodup)
    (hlen : typeArguments.length = declaration.typeParameters.length)
    (hlen' : typeArguments'.length = declaration.typeParameters.length)
    (hplain : ∀ t ∈ typeArguments, t.IsPlain) (hplain' : ∀ t ∈ typeArguments', t.IsPlain)
    (h : mangling declaration typeArguments = .ok names) (h' : mangling declaration typeArguments' = .ok names')
    (hnames : Forall₂ Ty.SameName names names') : typeArguments = typeArguments' := by
  obtain ⟨types, htypes, rfl⟩ := mangling_eq_ok h
  obtain ⟨types', htypes', rfl⟩ := mangling_eq_ok h'
  -- Both manglings have one type for every parameter, so that they fall apart at the same place.
  have hsplit : types.length = types'.length := htypes.length_eq.symm.trans htypes'.length_eq
  have hparams : Forall₂ Ty.SameName types types' := by
    have htake := forall₂_take types.length hnames
    rwa [take_left, hsplit, take_left] at htake
  have hundetermined : undetermined declaration typeArguments = undetermined declaration typeArguments' := by
    have hdrop := forall₂_drop types.length hnames
    rw [drop_left, hsplit, drop_left] at hdrop
    exact Ty.eq_of_forall₂_sameName hdrop (fun t ht => hplain t (mem_of_mem_undetermined ht))
      (fun t ht => hplain' t (mem_of_mem_undetermined ht))
  refine eq_of_filter_zip (!declaration.determines ·) hlen hlen' hundetermined fun name a b hshown ha hb => ?_
  obtain ⟨p, hp, hmentions⟩ := any_eq_true.mp (by simpa using hshown : declaration.determines name = true)
  obtain ⟨_, _, htype, htype', hsame⟩ := sameName_of_parameter htypes htypes' hparams hp
  obtain ⟨_, _, hbound, hbound', _, hshort, hshort'⟩ := hsame.of_substitute htype htype' hmentions
  have hkeys : ∀ {args : List Ty}, args.length = declaration.typeParameters.length →
      ((declaration.typeParameters.zip args).map Prod.fst).Nodup := fun hlen => by
    rwa [map_fst_zip (Nat.le_of_eq hlen.symm)]
  rw [bindTypeParameters, Assoc.get?_ofPairs (hkeys hlen) ha] at hbound
  rw [bindTypeParameters, Assoc.get?_ofPairs (hkeys hlen') hb] at hbound'
  cases hbound
  cases hbound'
  exact Ty.shortName_injective (hplain a (of_mem_zip ha).2) (hplain' b (of_mem_zip hb).2) hshort hshort'

/-- An instance of a template is named by at least one type. -/
theorem mangling_ne_nil (hlen : typeArguments.length = declaration.typeParameters.length)
    (htemplate : declaration.typeParameters ≠ []) (h : mangling declaration typeArguments = .ok names) :
    names ≠ [] := by
  obtain ⟨_, htypes, rfl⟩ := mangling_eq_ok h
  obtain ⟨name, _, hparams⟩ := exists_cons_of_ne_nil htemplate
  obtain ⟨first, others, rfl⟩ : ∃ first others, typeArguments = first :: others :=
    exists_cons_of_length_eq_add_one (hlen.trans (by rw [hparams]; rfl))
  rw [ne_eq, append_eq_nil_iff, not_and_or]
  cases hshown : declaration.determines name with
  | true =>
    obtain ⟨p, hp, -⟩ := any_eq_true.mp hshown
    refine .inl fun hnil => ?_
    rw [hnil, forall₂_nil_right_iff] at htypes
    simp [htypes] at hp
  | false => exact .inr (by simp [undetermined, hparams, hshown])

theorem exists_shortName_of_mangling (hplain : ∀ t ∈ typeArguments, t.IsPlain)
    (hknown : ∀ p ∈ declaration.parameters, p.type.IsKnown) (h : mangling declaration typeArguments = .ok names) :
    ∀ type ∈ names, ∃ name, type.shortName = .ok name := by
  obtain ⟨_, htypes, rfl⟩ := mangling_eq_ok h
  have hbound : ∀ name bound, (bindTypeParameters declaration typeArguments).get? name = some bound →
      bound.IsPlain := fun name bound hfound => hplain bound (of_mem_zip (Assoc.mem_of_get?_ofPairs hfound)).2
  rw [forall_mem_append]
  refine ⟨fun type htype => ?_, fun type htype => (hplain type (mem_of_mem_undetermined htype)).exists_shortName⟩
  obtain ⟨p, hp, hsubstitute⟩ := exists_origin htypes htype
  exact Ty.exists_shortName_of_substitute (hknown p hp) hbound hsubstitute

end

/-! ## Texts of instances -/

namespace Instance

variable {module : Module} {i j : Instance} {text : String}

/-- The instance is of a template with type parameters, at plain types. -/
def IsPlain (module : Source.Module) (i : Instance) : Prop :=
  (∀ declaration, module.functions[i.template]? = some declaration → declaration.typeParameters ≠ []) ∧
    ∀ t ∈ i.typeArguments, t.IsPlain

theorem IsMade.exists_text (hi : i.IsMade module) (hplain : ∀ t ∈ i.typeArguments, t.IsPlain)
    (hknown : ∀ decl, module.functions[i.template]? = some decl →
      ∀ p ∈ decl.parameters, p.type.IsKnown) : ∃ text, i.symbol.text = .ok text := by
  obtain ⟨decl, _, hdecl, -, -, hmangling, hsym⟩ := hi
  obtain ⟨texts, htexts⟩ := exists_mapM
    (exists_shortName_of_mangling hplain (hknown decl hdecl) hmangling)
  refine ⟨Text.join "$" ((module.name ++ "_" ++ decl.name) :: texts), ?_⟩
  rw [hsym, Symbol.text, htexts]
  rfl

theorem IsMade.symbol_eq (hi : i.IsMade module) (hj : j.IsMade module) (hkey : i.key = j.key) :
    i.symbol = j.symbol := by
  obtain ⟨f, _, hf, -, -, hmangling, hsym⟩ := hi
  obtain ⟨g, _, hg, -, -, hmangling', hsym'⟩ := hj
  obtain ⟨htemplate, hargs⟩ := Prod.mk.inj hkey
  rw [htemplate, hg] at hf
  cases hf
  rw [hargs, hmangling'] at hmangling
  cases hmangling
  rw [hsym, hsym']

section
variable (hnames : (module.functions.map (·.name)).Nodup) (hdollar : ∀ f ∈ module.functions, '$' ∉ f.name.toList)
include hdollar

include hnames in
/-- Instances of plain types have one text only if they are of one template at the same types. -/
theorem IsMade.key_eq_of_text (hparams : ∀ f ∈ module.functions, f.typeParameters.Nodup) (hi : i.IsMade module)
    (hj : j.IsMade module) (hplain : i.IsPlain module) (hplain' : j.IsPlain module) (h : i.symbol.text = .ok text)
    (h' : j.symbol.text = .ok text) : i.key = j.key := by
  obtain ⟨f, _, hf, hlen, -, hmangling, hsym⟩ := hi
  obtain ⟨g, _, hg, hlen', -, hmangling', hsym'⟩ := hj
  rw [hsym] at h
  rw [hsym'] at h'
  obtain ⟨hname, hsame⟩ := Symbol.sameName_of_text h h' rfl (hdollar f (mem_of_getElem? hf))
    (hdollar g (mem_of_getElem? hg))
  have htemplate : i.template = j.template := by
    have hbound : i.template < (module.functions.map (·.name)).length := by
      rw [List.length_map]
      exact (List.getElem?_eq_some_iff.mp hf).1
    refine (getElem?_inj hbound hnames).mp ?_
    rw [getElem?_map, getElem?_map, hf, hg]
    exact congrArg some hname
  obtain rfl : f = g := Option.some.inj (hf.symm.trans (htemplate ▸ hg))
  exact Prod.ext htemplate (typeArguments_eq_of_sameName (hparams f (mem_of_getElem? hf)) hlen hlen'
    hplain.2 hplain'.2 hmangling hmangling' hsame)

/-- No ordinary function has the text of an instance. -/
theorem IsMade.text_ne_ordinary (hi : i.IsMade module) (hplain : i.IsPlain module) (hf : f ∈ module.functions) :
    i.symbol.text ≠ (Symbol.mk module.name f.name []).text := by
  obtain ⟨g, _, hg, hlen, -, hmangling, hsym⟩ := hi
  intro h
  rw [hsym] at h
  have hordinary : (Symbol.mk module.name f.name []).text = .ok (Text.join "$" [module.name ++ "_" ++ f.name]) := rfl
  obtain ⟨-, hsame⟩ := Symbol.sameName_of_text (h.trans hordinary) hordinary rfl
    (hdollar g (mem_of_getElem? hg)) (hdollar f hf)
  exact mangling_ne_nil hlen (hplain.1 g hg) hmangling (forall₂_nil_right_iff.mp hsame)

end

end Instance

/-! ## Histories -/

/-- The instances of the cache are those of the module's templates. -/
structure InstanceCache.IsOf (module : Source.Module) (c : InstanceCache) : Prop where
  home : c.module = module.name
  made : ∀ i ∈ c.instances, i.IsMade module

namespace InstanceCache

variable {module : Module} {c c' : InstanceCache} {template : Nat} {declaration : Declaration}
  {typeArguments : List Ty}

theorem IsOf.reserved (hc : c.IsOf module) {i} (hi : i.IsMade module) : (c.reserved i).IsOf module :=
  ⟨hc.home, forall_mem_append.mpr ⟨hc.made, forall_mem_singleton.mpr hi⟩⟩

/-- What a request gives is an instance of the template, be it new or not. -/
theorem IsOf.instantiate (hc : c.IsOf module) (hd : module.functions[template]? = some decl)
    (h : c.instantiate template decl typeArgs = .ok (result, c')) :
    c'.IsOf module ∧ ∀ i, result = .ok i → i.IsMade module ∧ i.key = (template, typeArgs) := by
  obtain ⟨i, hfound, rfl, rfl⟩ | ⟨_, -, rfl, rfl⟩ | ⟨names, -, hrefusal, hnames, rfl, rfl⟩ := instantiate_cases h
  · obtain ⟨hi, hkey⟩ := key_of_find? hfound
    refine ⟨hc, fun j hj => ?_⟩
    cases hj
    exact ⟨hc.made i hi, hkey⟩
  · exact ⟨hc, fun i hi => nomatch hi⟩
  · have hmade : (c.made template decl typeArgs names).IsMade module :=
      ⟨decl, names, hd, (of_refusal?_eq_none hrefusal).1, rfl, hnames, by rw [← hc.home]; rfl⟩
    refine ⟨hc.reserved hmade, fun j hj => ?_⟩
    cases hj
    exact ⟨hmade, rfl⟩

end InstanceCache

namespace Ledger

variable {module : Module} {s : Ledger}

theorem isOf_perform (hs : s.cache.IsOf module) (request : Request) :
    (s.perform module.functions request).cache.IsOf module := by
  cases request with
  | clear => exact ⟨hs.home, hs.made⟩
  | instantiate template typeArgs =>
    unfold perform
    dsimp only
    cases hdecl : module.functions[template]? with
    | none => exact hs
    | some decl =>
      dsimp only
      cases hrequest : s.cache.instantiate template decl typeArgs with
      | error => exact hs
      | ok result =>
        obtain ⟨_, _⟩ := result
        exact (hs.instantiate hdecl hrequest).1

theorem isOf_foldl_perform (hs : s.cache.IsOf module) (requests : List Request) :
    (requests.foldl (perform module.functions) s).cache.IsOf module := by
  induction requests generalizing s with
  | nil => exact hs
  | cons request _ ih => exact ih (isOf_perform hs request)

theorem isOf_complete {c : InstanceCache} (hc : c.IsOf module) (place : Nat) (proc : Procedure) :
    (c.complete place proc).IsOf module := by
  refine ⟨hc.home, fun j hj => ?_⟩
  obtain ⟨n, hn⟩ := mem_iff_getElem?.mp hj
  obtain ⟨i, hi, rfl⟩ := getElem?_complete hn
  have hmade := hc.made i (mem_of_getElem? hi)
  split <;> exact hmade

theorem isOf_execute (hs : s.cache.IsOf module) (command : Command) :
    (s.execute module.functions command).cache.IsOf module := by
  cases command with
  | request request => exact isOf_perform hs request
  | drain callback =>
    rcases hdrain : s.drain module.functions callback with ⟨result, t⟩
    cases result with
    | error e => exact e.elim
    | ok =>
      rw [execute, hdrain]
      refine drain_invariant (I := fun s => s.cache.IsOf module) (fun u v hu hround => ?_) hs hdrain
      obtain ⟨place, i, _, hnext, hlower⟩ := hround
      obtain ⟨queue, -, -, rfl⟩ := next?_cases hnext
      have hasked := isOf_foldl_perform (s := { u with
          cache := { u.cache with queue }
          handed := u.handed ++ [(i.key, (callback i { u with cache := { u.cache with queue } }).2)] })
        ⟨hu.home, hu.made⟩ (callback i { u with cache := { u.cache with queue } }).1
      rcases hlower with hlower | ⟨proc, w, hlower, rfl⟩
      · exact (Prod.mk.inj hlower).2 ▸ hasked
      · exact isOf_complete ((Prod.mk.inj hlower).2 ▸ hasked) place proc

theorem isOf_run (hs : s.cache.IsOf module) (history : List Command) :
    (run module.functions history s).cache.IsOf module := by
  induction history generalizing s with
  | nil => exact hs
  | cons command _ ih => exact ih (isOf_execute hs command)

/-- After every history two instances have one text exactly if they are of one template at the same type
arguments, and none has that of an ordinary function, where functions have different names without dollar
signs and the instances are of templates at plain types. -/
theorem texts_tell_instances_apart (module : Source.Module) (hnames : (module.functions.map (·.name)).Nodup)
    (hdollar : ∀ f ∈ module.functions, '$' ∉ f.name.toList)
    (hparameters : ∀ f ∈ module.functions, f.typeParameters.Nodup) (limits : InstantiationLimits)
    (history : List Command) :
    let s := run module.functions history (start module.name limits)
    (∀ i ∈ s.cache.instances, i.IsPlain module) →
    (∀ i ∈ s.cache.instances, (∀ declaration, module.functions[i.template]? = some declaration →
      ∀ p ∈ declaration.parameters, p.type.IsKnown) → ∃ text, i.symbol.text = .ok text) ∧
    (∀ i ∈ s.cache.instances, ∀ j ∈ s.cache.instances, ∀ text, i.symbol.text = .ok text →
      (j.symbol.text = .ok text ↔ i.template = j.template ∧ i.typeArguments = j.typeArguments)) ∧
    ∀ i ∈ s.cache.instances, ∀ f ∈ module.functions, f.typeParameters = [] →
      i.symbol.text ≠ (Symbol.mk module.name f.name []).text := by
  intro s hplain
  have hof : s.cache.IsOf module := isOf_run ⟨rfl, fun i hi => absurd hi not_mem_nil⟩ history
  refine ⟨fun i hi hknown => ?_, fun i hi j hj text htext => ⟨fun htext' => ?_, fun hkey => ?_⟩,
    fun i hi f hf _ => ?_⟩
  · exact (hof.made i hi).exists_text (hplain i hi).2 hknown
  · exact Prod.ext_iff.mp ((hof.made i hi).key_eq_of_text hnames hdollar hparameters (hof.made j hj) (hplain i hi)
      (hplain j hj) htext htext')
  · rw [← (hof.made i hi).symbol_eq (hof.made j hj) (Prod.ext hkey.1 hkey.2)]
    exact htext
  · exact (hof.made i hi).text_ne_ordinary hdollar (hplain i hi) hf

/-- A template whose parameter tells its type argument, one whose parameters do not, and an ordinary function. -/
def sizes : Source.Module where
  name := "m"
  functions := [identity, ⟨"size", ["T"], [⟨"scale", .u16⟩], .u16, [], false, none⟩,
    ⟨"main", [], [⟨"scale", .u16⟩], .void, [], false, none⟩]
  globals := []

/-- Bytes by the ten. -/
def tenBytes : Ty := .array .u8 (.ofNumber (.dyadic 10 0))

theorem sizes_texts_tell_instances_apart :
    let s := run sizes.functions [.request (.instantiate 0 [.pointer .u8]), .request (.instantiate 0 [tenBytes]),
      .request (.instantiate 1 [tenBytes]), .request (.instantiate 1 [.void])] (start sizes.name twoInstances)
    s.cache.instances.map (·.symbol.text) =
      [.ok "m_identity$p_u8", .ok "m_identity$a10_u8", .ok "m_size$u16$a10_u8", .ok "m_size$u16$void"] ∧
    ∀ i ∈ s.cache.instances, ∀ j ∈ s.cache.instances, ∀ text, i.symbol.text = .ok text →
      (j.symbol.text = .ok text ↔ i.template = j.template ∧ i.typeArguments = j.typeArguments) := by
  intro s
  have htemplates : ∀ place < 2, ∀ f, sizes.functions[place]? = some f → f.typeParameters ≠ [] := by decide
  have hten : tenBytes.IsPlain := ⟨trivial, 10, by decide, rfl⟩
  refine ⟨by decide, (texts_tell_instances_apart sizes (by decide) (by decide) (by decide) twoInstances _ ?_).2.1⟩
  intro i hi
  have hkeys : s.cache.keys = [(0, [.pointer .u8]), (0, [tenBytes]), (1, [tenBytes]), (1, [.void])] := by decide
  have hkey : i.key ∈ s.cache.keys := mem_map_of_mem hi
  simp only [hkeys, mem_cons, not_mem_nil, or_false] at hkey
  obtain ⟨htemplate, harguments⟩ : i.template < 2 ∧ ∀ t ∈ i.typeArguments, t.IsPlain := by
    rcases hkey with h | h | h | h <;> obtain ⟨htemplate, harguments⟩ := Prod.mk.inj h <;>
      rw [htemplate, harguments, forall_mem_singleton]
    · exact ⟨by decide, trivial⟩
    · exact ⟨by decide, hten⟩
    · exact ⟨by decide, hten⟩
    · exact ⟨by decide, trivial⟩
  exact ⟨htemplates _ htemplate, harguments⟩

end Ledger

end Retarget
