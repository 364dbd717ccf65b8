import Retarget.Proofs.Lower.Assembly
import Retarget.Proofs.Lower.Specialization
import Retarget.Proofs.Meaning.Evaluation

/-!
# Modules whose names are resolved

A front end leaves no name in doubt: what stands for a variable carries the type that the variable is declared
with, and no two functions of a module have one name. In the program of such a module, what is found by a function's
symbol is the procedure of that function, also where functions are instances: the symbol of an instance tells its
type arguments.
-/
namespace Retarget

open Checked InstanceCache List

namespace Source

/-! ## Names and their types -/

/-- The names in scope with the types that they are declared with, the innermost first. -/
abbrev Scope := List (String × Ty)

def Scope.type? (scope : Scope) (name : String) : Option Ty := (scope.find? (·.1 == name)).map Prod.snd

section
variable (module : Module)

def Module.globalType? (name : String) : Option Ty := (module.global? name).map (·.type)

def Module.elementType? (name : String) : Option Ty :=
  match module.globalType? name with
  | some (.array of _) => some of
  | _ => none

mutual

/-- Whatever stands for a variable has the type that the variable is declared with. -/
def Expression.isResolved (scope : Scope) : Expression → Bool
  | .identifier name type _ => scope.type? name == some type
  | .global name type _ => module.globalType? name == some type
  | .index array index type _ => module.elementType? array == some type && index.isResolved scope
  | .addressOf name type _ => (module.globalType? name).map .pointer == some type
  | .binary _ lhs rhs _ _ | .comparison _ lhs rhs _ => lhs.isResolved scope && rhs.isResolved scope
  | .not operand _ | .dereference operand _ _ | .convert operand _ _ => operand.isResolved scope
  | .call _ arguments _ _ => areResolved scope arguments
  | .ternary condition whenTrue whenFalse _ _ =>
    condition.isResolved scope && whenTrue.isResolved scope && whenFalse.isResolved scope
  | .number .. | .boolean .. | .string .. | .unknown .. => true

def areResolved (scope : Scope) : List Expression → Bool
  | [] => true
  | e :: rest => e.isResolved scope && areResolved scope rest

end

def Assignee.isResolved (scope : Scope) : Assignee → Bool
  | .index _ e | .dereference e => e.isResolved module scope
  | .variable _ | .global _ | .unknown _ => true

/-- What a statement adds to the scope of those that follow it. -/
def Statement.declares : Statement → Scope
  | .declaration name type _ _ => [(name, type)]
  | _ => []

mutual

def Statement.isResolved (scope : Scope) : Statement → Bool
  | .declaration _ _ (some value) _ | .expression value _ | .ret (some value) _ => value.isResolved module scope
  | .assignment target value _ => target.isResolved module scope && value.isResolved module scope
  | .conditional condition whenTrue whenFalse _ =>
    condition.isResolved module scope && blockResolved scope whenTrue &&
      match whenFalse with
      | some statements => blockResolved scope statements
      | none => true
  | .whileLoop condition body _ => condition.isResolved module scope && blockResolved scope body
  | .forLoop counter type first limit body _ =>
    first.isResolved module scope && limit.isResolved module scope && blockResolved ((counter, type) :: scope) body
  | .declaration _ _ none _ | .increment .. | .decrement .. | .ret none _ | .unknown _ => true

/-- A variable is in scope behind its declaration. -/
def blockResolved (scope : Scope) : List Statement → Bool
  | [] => true
  | statement :: rest => statement.isResolved scope && blockResolved (statement.declares ++ scope) rest

end

end

/-- The scope that the body of a function starts with. A later parameter hides an earlier one of its name. -/
def Declaration.scope (declaration : Declaration) : Scope :=
  (declaration.parameters.map fun p => (p.name, p.type)).reverse

/-- Every name stands for one thing, with the type that it is declared with. -/
structure Module.IsResolved (module : Module) : Prop where
  functions : (module.functions.map (·.name)).Nodup
  typeParameters : ∀ d ∈ module.functions, d.typeParameters.Nodup
  globals : ∀ g ∈ module.globals, g.type.IsConcrete
  bodies : ∀ d ∈ module.functions, blockResolved module d.scope d.body = true

/-! ## Functions -/

/-- The function is an ordinary one of the module, or an instance of one of its templates. -/
inductive Module.Offers (module : Module) : Function → Prop
  | ordinary {d : Declaration} (declared : d ∈ module.functions) (plain : d.typeParameters = []) :
      Offers module ⟨⟨module.name, d.name, []⟩, d, []⟩
  | specialized {d : Declaration} {typeArguments names : List Ty} (declared : d ∈ module.functions)
      (count : typeArguments.length = d.typeParameters.length) (concrete : ∀ t ∈ typeArguments, t.IsConcrete)
      (mangled : mangling d typeArguments = .ok names) :
      Offers module ⟨⟨module.name, d.name, names⟩, d, bindTypeParameters d typeArguments⟩

theorem Module.Offers.concrete {module : Module} {function} (h : module.Offers function) {name bound}
    (hbound : function.bindings.get? name = some bound) : bound.IsConcrete := by
  cases h with
  | ordinary => cases hbound
  | specialized _ _ concrete =>
    exact concrete bound (of_mem_zip (Assoc.mem_of_get?_ofPairs hbound)).2

theorem Module.Offers.declared {module : Module} {function} (h : module.Offers function) :
    function.declaration ∈ module.functions := by
  cases h <;> assumption

end Source

/-! ## Type arguments of a symbol -/

/-- What a type becomes tells what its parameters are bound to. -/
theorem Ty.get?_of_substitute {type : Ty} (h : type.substitute bindings = .ok result)
    (h' : type.substitute bindings' = .ok result) (hname : type.mentions name = true) :
    ∃ bound, bindings.get? name = some bound ∧ bindings'.get? name = some bound := by
  induction type generalizing result with
  | parameter other =>
    obtain rfl : other = name := by simpa [mentions] using hname
    rw [substitute] at h h'
    split at h <;> split at h' <;> cases h <;> cases h'
    exact ⟨result, ‹_›, ‹_›⟩
  | pointer _ ih | array _ _ ih =>
    obtain ⟨a, ha, hresult⟩ := bind_eq_ok.mp h
    obtain ⟨b, hb, hresult'⟩ := bind_eq_ok.mp h'
    cases hresult
    cases hresult'
    exact ih ha hb hname
  | _ => cases hname

/-- An instance's types tell its type arguments. -/
theorem typeArguments_eq_of_mangling {d : Source.Declaration} {typeArguments typeArguments'}
    (hdistinct : d.typeParameters.Nodup) (hlength : typeArguments.length = d.typeParameters.length)
    (hlength' : typeArguments'.length = d.typeParameters.length) (h : mangling d typeArguments = .ok names)
    (h' : mangling d typeArguments' = .ok names) : typeArguments = typeArguments' := by
  obtain ⟨_, htypes, rfl⟩ := mangling_eq_ok h
  obtain ⟨_, htypes', heq⟩ := mangling_eq_ok h'
  obtain ⟨rfl, hundetermined⟩ := append_inj heq (htypes.length_eq.symm.trans htypes'.length_eq)
  refine eq_of_filter_zip (!d.determines ·) hlength hlength' hundetermined fun name a b hshown ha hb => ?_
  obtain ⟨p, hp, hmentions⟩ := any_eq_true.mp (by simpa using hshown : d.determines name = true)
  obtain ⟨type, htype, htype'⟩ : ∃ type, p.type.substitute (bindTypeParameters d typeArguments) = .ok type ∧
      p.type.substitute (bindTypeParameters d typeArguments') = .ok type := by
    obtain ⟨i, hi⟩ := mem_iff_getElem?.mp hp
    obtain ⟨hlt, rfl⟩ := List.getElem?_eq_some_iff.mp hi
    exact ⟨_, htypes.get hlt (htypes.length_eq ▸ hlt), htypes'.get hlt (htypes.length_eq ▸ hlt)⟩
  obtain ⟨_, hbound, hbound'⟩ := Ty.get?_of_substitute htype htype' hmentions
  have hkeys : ∀ {arguments : List Ty}, arguments.length = d.typeParameters.length →
      ((d.typeParameters.zip arguments).map Prod.fst).Nodup := fun hlength => by
    rwa [map_fst_zip (Nat.le_of_eq hlength.symm)]
  rw [bindTypeParameters, Assoc.get?_ofPairs (hkeys hlength) ha] at hbound
  rw [bindTypeParameters, Assoc.get?_ofPairs (hkeys hlength') hb] at hbound'
  exact (Option.some.inj hbound).trans (Option.some.inj hbound').symm

/-! ## Procedures of functions -/

open Lower

section
variable {module : Source.Module} {final : Shared} {p : Program} {f : Procedure} {symbol : Symbol}

theorem Source.Module.IsResolved.eq_of_name (hm : module.IsResolved) (hd : d ∈ module.functions)
    (hd' : d' ∈ module.functions) (hname : d.name = d'.name) : d = d' :=
  inj_on_of_nodup_map hm.functions hd hd' hname

/-- Every procedure is that of an ordinary function or of an instance. -/
theorem Program.Assembled.of_find? (hp : p.Assembled module final) (hf : p.find? symbol = some f) :
    (∃ d ∈ module.functions, d.typeParameters = [] ∧ symbol = ⟨module.name, d.name, []⟩ ∧
      Lowered module final d symbol [] f) ∨
    ∃ d typeArgs names, d ∈ module.functions ∧ typeArgs.length = d.typeParameters.length ∧
      mangling d typeArgs = .ok names ∧ symbol = ⟨module.name, d.name, names⟩ ∧
      Lowered module final d symbol (bindTypeParameters d typeArgs) f := by
  obtain ⟨_, hprocedures, hall⟩ := hp.ordinary
  obtain rfl : f.symbol = symbol := by simpa using find?_some hf
  rcases mem_append.mp (hprocedures ▸ mem_of_find?_eq_some hf) with hmem | hmem
  · obtain ⟨d, hd, hlowered⟩ := exists_origin hall hmem
    obtain ⟨hd, hplain⟩ := mem_filter.mp hd
    have hsymbol := Lowered.symbol_eq hlowered
    exact .inl ⟨d, hd, List.isEmpty_iff.mp hplain, hsymbol, hsymbol ▸ hlowered⟩
  · obtain ⟨i, hi, hbody⟩ := mem_filterMap.mp hmem
    obtain ⟨d, g, hd, hg, hlowered⟩ := hp.instances i hi
    rw [hbody] at hg
    cases hg
    obtain ⟨_, names, hd', hcount, hbindings, hmangled, hsymbol⟩ := hp.sound.instances i hi
    obtain rfl := Option.some.inj (hd.symm.trans hd')
    have hi := hlowered.symbol_eq
    rw [hbindings, ← hi] at hlowered
    exact .inr ⟨d, i.typeArguments, names, mem_of_getElem? hd, hcount, hmangled, hi.trans hsymbol, hlowered⟩

/-- What is found by a function's symbol is the function's procedure. -/
theorem Program.Assembled.lowered_of_offers (hp : p.Assembled module final) (hm : module.IsResolved)
    (h : module.Offers function) (hf : p.find? function.symbol = some f) :
    Lowered module final function.declaration function.symbol function.bindings f := by
  cases h with
  | @ordinary d declared plain =>
    obtain ⟨_, hd', -, hsymbol, hlowered⟩ | ⟨_, typeArguments, _, hd', hcount, -, hsymbol, hlowered⟩ :=
      hp.of_find? hf
    · obtain rfl := hm.eq_of_name declared hd' (congrArg Symbol.name hsymbol)
      exact hlowered
    · obtain rfl := hm.eq_of_name declared hd' (congrArg Symbol.name hsymbol)
      obtain rfl : typeArguments = [] := length_eq_zero_iff.mp (by rw [hcount, plain]; rfl)
      rwa [bindTypeParameters, plain] at hlowered
  | @specialized d typeArguments names declared count _ mangled =>
    obtain ⟨d', hd', hplain, hsymbol, hlowered⟩ |
      ⟨d', typeArguments', names', hd', hcount, hmangled, hsymbol, hlowered⟩ := hp.of_find? hf
    · obtain rfl := hm.eq_of_name declared hd' (congrArg Symbol.name hsymbol)
      show Lowered module final d _ (bindTypeParameters d typeArguments) f
      rwa [bindTypeParameters, hplain]
    · obtain rfl := hm.eq_of_name declared hd' (congrArg Symbol.name hsymbol)
      obtain rfl : names = names' := congrArg Symbol.mangling hsymbol
      obtain rfl := typeArguments_eq_of_mangling (hm.typeParameters d declared) count hcount mangled hmangled
      exact hlowered

end

/-! ## Callees -/

namespace Lower

/-- The declaration that lowering finds is the first one of the name. -/
theorem declaration_of_find? {module : Source.Module}
    (h : module.functions.zipIdx.find? (·.1.name == name) = some (d, place)) :
    module.declaration name = .ok d ∧ module.functions[place]? = some d := by
  obtain ⟨hlt, hd⟩ := mem_zipIdx' (mem_of_find?_eq_some h)
  have hfirst : module.functions.find? (·.name == name) = some d := by
    rw [← zipIdx_map_fst 0 module.functions, find?_map]
    exact congrArg (Option.map Prod.fst) h
  rw [Source.Module.declaration, hfirst]
  exact ⟨rfl, List.getElem?_eq_some_iff.mpr ⟨hlt, hd.symm⟩⟩

/-- The symbol that a callee is resolved to is that of the function which it stands for. -/
theorem Resolves.function_eq (h : Resolves ctx s callee symbol t)
    (hs : s.Sound ctx) (hconcrete : ∀ name bound, ctx.bindings.get? name = some bound → bound.IsConcrete) :
    ∃ function, ctx.module.function ctx.bindings callee = .ok function ∧ function.symbol = symbol ∧
      ctx.module.Offers function := by
  cases h with
  | @function _ d _ found plain =>
    obtain ⟨hd, hplace⟩ := declaration_of_find? found
    exact ⟨_, by rw [Source.Module.function, hd]; rfl, rfl, .ordinary (mem_of_getElem? hplace) plain⟩
  | @generic _ d _ typeArgs concrete made _ found substituted request =>
    obtain ⟨hd, hplace⟩ := declaration_of_find? found
    obtain ⟨names, hmangled, hcount, hsym⟩ : ∃ names, mangling d concrete = .ok names ∧
        concrete.length = d.typeParameters.length ∧ made.symbol = ⟨ctx.module.name, d.name, names⟩ := by
      obtain ⟨i, hfind, hresult, -⟩ | ⟨_, -, hresult, -⟩ | ⟨names, -, hrefusal, hnames, hresult, -⟩ :=
        instantiate_cases request
      · cases hresult
        obtain ⟨hmem, hkey⟩ := key_of_find? hfind
        obtain ⟨_, names, hd', hcount, -, hmangled, hsym⟩ := hs.shared.instances made hmem
        obtain ⟨htemplate, hargs⟩ := Prod.mk.inj hkey
        rw [htemplate, hplace] at hd'
        cases hd'
        exact ⟨names, hargs ▸ hmangled, hargs ▸ hcount, hsym⟩
      · cases hresult
      · cases hresult
        exact ⟨names, hnames, (of_refusal?_eq_none hrefusal).1, by rw [← hs.shared.home]; rfl⟩
    refine ⟨⟨⟨ctx.module.name, d.name, names⟩, d, bindTypeParameters d concrete⟩, ?_, hsym.symm,
      .specialized (mem_of_getElem? hplace) hcount ?_ hmangled⟩
    · rw [Source.Module.function, hd]
      show (typeArgs.mapM (·.substitute ctx.bindings) >>= _ : Checked Source.Function) = _
      rw [substituted]
      show (mangling d concrete >>= _ : Checked Source.Function) = _
      rw [hmangled]
      rfl
    · intro t ht
      obtain ⟨_, -, htype⟩ := exists_origin (forall₂_of_mapM substituted) ht
      exact Ty.isConcrete_of_substitute hconcrete htype

end Lower

end Retarget
