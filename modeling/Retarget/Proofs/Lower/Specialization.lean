import Retarget.Proofs.Assoc
import Retarget.Proofs.Checked
import Retarget.Proofs.Lower.Yields

/-!
# Specialised declarations

A generic function can be written out by hand for given type arguments: every type in it is replaced, and it has
no type parameters any more. Lowering the template under the bindings of the type arguments is the same action
as lowering the copy that was written out: the same procedure or the same refusal, the same strings and
the same requests for instances (`lowerFunction_template`).
-/
namespace Retarget

open List Source

/-! ## Types written out -/

namespace Ty

/-- The type with its parameters replaced, those that are bound. -/
def specialize (bindings : Assoc String Ty) : Ty → Ty
  | .parameter name => (bindings.get? name).getD (.parameter name)
  | .pointer inner => .pointer (specialize bindings inner)
  | .array of length => .array (specialize bindings of) length
  | type => type

/-- No type parameter occurs in the type. -/
def IsConcrete (type : Ty) : Prop := ∀ name, type.mentions name = false

variable {bindings : Assoc String Ty} {type : Ty}

theorem IsConcrete.substitute_eq (h : type.IsConcrete) : type.substitute bindings = .ok type := by
  induction type with
  | parameter name => simpa [mentions] using h name
  | pointer _ ih | array _ _ ih =>
    rw [substitute, ih h]
    rfl
  | _ => rfl

section
variable (hb : ∀ name bound, bindings.get? name = some bound → bound.IsConcrete)
include hb

/-- Once written out, a type stands for itself; a parameter that is not bound stays unbound. -/
theorem substitute_specialize : (type.specialize bindings).substitute [] = type.substitute bindings := by
  induction type with
  | parameter name =>
    rw [specialize, substitute]
    cases hbound : bindings.get? name with
    | none => rfl
    | some bound => exact (hb name bound hbound).substitute_eq
  | pointer _ ih | array _ _ ih => rw [specialize, substitute, ih, substitute]
  | _ => rfl

/-- What is bound to concrete types is concrete. -/
theorem isConcrete_of_substitute (h : type.substitute bindings = .ok result) : result.IsConcrete := by
  induction type generalizing result with
  | parameter name =>
    rw [substitute] at h
    split at h
    · cases h
      exact hb name _ ‹_›
    · cases h
  | pointer _ ih | array _ _ ih =>
    obtain ⟨a, ha, hresult⟩ := Checked.bind_eq_ok.mp h
    cases hresult
    have hinner := ih ha
    exact hinner
  | _ =>
    cases h
    exact fun _ => rfl

end

end Ty

/-! ## Declarations written out -/

namespace Source

def Callee.mapTypes (f : Ty → Ty) : Callee → Callee
  | .generic name typeArguments => .generic name (typeArguments.map f)
  | callee => callee

mutual

def Expression.mapTypes (f : Ty → Ty) : Expression → Expression
  | .number value type site => .number value (f type) site
  | .boolean value site => .boolean value site
  | .string value site => .string value site
  | .identifier name type site => .identifier name (f type) site
  | .global name type site => .global name (f type) site
  | .binary operator lhs rhs type site => .binary operator (lhs.mapTypes f) (rhs.mapTypes f) (f type) site
  | .comparison comparison lhs rhs site => .comparison comparison (lhs.mapTypes f) (rhs.mapTypes f) site
  | .not operand site => .not (operand.mapTypes f) site
  | .call callee arguments type site => .call (callee.mapTypes f) (mapArguments f arguments) (f type) site
  | .index array index type site => .index array (index.mapTypes f) (f type) site
  | .addressOf global type site => .addressOf global (f type) site
  | .dereference pointer type site => .dereference (pointer.mapTypes f) (f type) site
  | .convert operand type site => .convert (operand.mapTypes f) (f type) site
  | .ternary condition ifTrue ifFalse type site =>
    .ternary (condition.mapTypes f) (ifTrue.mapTypes f) (ifFalse.mapTypes f) (f type) site
  | .unknown node type => .unknown node (type.map f)

def mapArguments (f : Ty → Ty) : List Expression → List Expression
  | [] => []
  | argument :: rest => argument.mapTypes f :: mapArguments f rest

end

theorem length_mapArguments (f : Ty → Ty) (args : List Expression) : (mapArguments f args).length = args.length := by
  induction args with
  | nil => rfl
  | cons arg _ ih => simp [mapArguments, ih]

def Assignee.mapTypes (f : Ty → Ty) : Assignee → Assignee
  | .index array offset => .index array (offset.mapTypes f)
  | .dereference pointer => .dereference (pointer.mapTypes f)
  | target => target

mutual

def Statement.mapTypes (f : Ty → Ty) : Statement → Statement
  | .declaration name type initializer site => .declaration name (f type) (initializer.map (·.mapTypes f)) site
  | .assignment target value site => .assignment (target.mapTypes f) (value.mapTypes f) site
  | .increment name site => .increment name site
  | .decrement name site => .decrement name site
  | .expression value site => .expression (value.mapTypes f) site
  | .ret value site => .ret (value.map (·.mapTypes f)) site
  | .conditional condition whenTrue none site =>
    .conditional (condition.mapTypes f) (mapStatements f whenTrue) none site
  | .conditional condition whenTrue (some whenFalse) site =>
    .conditional (condition.mapTypes f) (mapStatements f whenTrue) (some (mapStatements f whenFalse)) site
  | .whileLoop condition body site => .whileLoop (condition.mapTypes f) (mapStatements f body) site
  | .forLoop counter type first limit body site =>
    .forLoop counter (f type) (first.mapTypes f) (limit.mapTypes f) (mapStatements f body) site
  | .unknown node => .unknown node

def mapStatements (f : Ty → Ty) : List Statement → List Statement
  | [] => []
  | statement :: rest => statement.mapTypes f :: mapStatements f rest

end

namespace Declaration

/-- The function written out for what its type parameters are bound to. -/
def specialize (d : Declaration) (bindings : Assoc String Ty) : Declaration :=
  { d with
    typeParameters := []
    parameters := d.parameters.map fun p => ⟨p.name, p.type.specialize bindings⟩
    returnType := d.returnType.specialize bindings
    body := mapStatements (·.specialize bindings) d.body }

end Declaration

end Source

/-! ## Lowering what is written out -/

namespace Lower

variable {ctx : Context}

def Context.specialized (ctx : Context) : Context :=
  { ctx with declaration := ctx.declaration.specialize ctx.bindings, bindings := [] }

/-- No type parameter is left where bindings have been replaced, nor does a global variable have one. -/
structure Context.Closed (ctx : Context) : Prop where
  bindings : ∀ name bound, ctx.bindings.get? name = some bound → bound.IsConcrete
  globals : ∀ g ∈ ctx.globals, g.type.IsConcrete

/-- Only the variables of the module matter to what is done with the one that is found. -/
theorem findGlobal_congr {α : Type} (ctx : Context) (name : String) {f f' : GlobalVariable → Lower α}
    (h : ∀ g ∈ ctx.globals, f g = f' g) : (findGlobal ctx name >>= f) = findGlobal ctx name >>= f' := by
  unfold findGlobal
  cases hg : ctx.globals.find? (·.name == name) with
  | none => rfl
  | some g =>
    simp only [pure_bind]
    exact h g (mem_of_find?_eq_some hg)

/-- Types without type parameters need no writing out. -/
theorem resolveScalar_concrete {type} (h : type.IsConcrete) (what : String) (site : Option Location) :
    resolveScalar ctx.specialized type what site = resolveScalar ctx type what site := by
  unfold resolveScalar
  rw [h.substitute_eq, h.substitute_eq]
  rfl

section
variable (hc : ctx.Closed)
include hc

theorem resolveScalar_specialized (type : Ty) (what : String) (site : Option Location) :
    resolveScalar ctx.specialized (type.specialize ctx.bindings) what site = resolveScalar ctx type what site := by
  unfold resolveScalar
  rw [← Ty.substitute_specialize hc.bindings]
  rfl

theorem elementAddress_specialized (name : String) (index : Lower Register) (site : Option Location) :
    elementAddress ctx.specialized name index site = elementAddress ctx name index site := by
  refine findGlobal_congr ctx name fun g hg => ?_
  have hconcrete := hc.globals g hg
  cases htype : g.type with
  | array of =>
    rw [htype] at hconcrete
    have hof : of.IsConcrete := hconcrete
    simp only [resolveScalar_concrete hof]
  | _ => rfl

/-- What is done with a type that was written out is done with the concrete type behind it. -/
theorem check_substitute_specialized {α : Type} (type : Ty) {f f' : Ty → Lower α}
    (h : ∀ t : Ty, t.IsConcrete → f t = f' t) :
    (check ((type.specialize ctx.bindings).substitute []) >>= f) = check (type.substitute ctx.bindings) >>= f' := by
  rw [Ty.substitute_specialize hc.bindings]
  cases hsubstitute : type.substitute ctx.bindings with
  | error => rfl
  | ok t => exact h t (Ty.isConcrete_of_substitute hc.bindings hsubstitute)

/-- Type arguments of a call are replaced before the instance is asked for. -/
theorem requestInstance_specialized (place : Nat) (declaration : Declaration) (typeArguments : List Ty) :
    requestInstance ctx.specialized place declaration (typeArguments.map (·.specialize ctx.bindings)) =
      requestInstance ctx place declaration typeArguments := by
  have hmap : (typeArguments.map (·.specialize ctx.bindings)).mapM (·.substitute ctx.specialized.bindings) =
      typeArguments.mapM (·.substitute ctx.bindings) := by
    induction typeArguments with
    | nil => rfl
    | cons t _ ih =>
      rw [map_cons, mapM_cons, mapM_cons, ih, ← Ty.substitute_specialize hc.bindings]
      rfl
  unfold requestInstance
  rw [hmap]

theorem callFunction_specialized (symbol : Symbol) (args : Lower (List Register)) (type : Ty)
    (site : Option Location) :
    callFunction ctx.specialized symbol args (type.specialize ctx.bindings) site =
      callFunction ctx symbol args type site := by
  unfold callFunction
  refine bind_congr fun registers => check_substitute_specialized hc type fun t ht => ?_
  rw [resolveScalar_concrete ht]

theorem lowerCall_specialized (callee : Callee) (count : Nat) (arguments : Lower (List Register)) (type : Ty)
    (site : Option Location) :
    lowerCall ctx.specialized (callee.mapTypes (·.specialize ctx.bindings)) count arguments
        (type.specialize ctx.bindings) site = lowerCall ctx callee count arguments type site := by
  cases callee with
  | function | generic =>
    simp only [lowerCall, Callee.mapTypes, callFunction_specialized hc, requestInstance_specialized hc]
    rfl
  | _ => rfl

end

/-! ## Lowering expressions that are written out -/

attribute [local simp] Source.Expression.mapTypes Source.mapArguments Source.length_mapArguments
  Source.Statement.mapTypes Source.mapStatements lowerExpression lowerArguments
  lowerStatement lowerStatements

mutual

theorem lowerExpression_specialized (hc : ctx.Closed) : ∀ e : Expression,
    lowerExpression ctx.specialized (e.mapTypes (·.specialize ctx.bindings)) = lowerExpression ctx e
  | .number .. => by
    simp [resolveScalar_specialized hc]
    rfl
  | .boolean .. | .string .. | .identifier .. | .addressOf .. | .unknown .. => rfl
  | .global name .. => by
    refine findGlobal_congr ctx name fun g hg => ?_
    rw [resolveScalar_concrete (hc.globals g hg)]
  | .binary _ left right .. => by
    simp [resolveScalar_specialized hc, lowerExpression_specialized hc left, lowerExpression_specialized hc right]
    rfl
  | .comparison _ left right _ => by
    simp [lowerExpression_specialized hc left, lowerExpression_specialized hc right]
    rfl
  | .not operand _ => by
    simp [lowerExpression_specialized hc operand]
  | .call _ args .. => by
    simp [lowerCall_specialized hc, lowerArguments_specialized hc args]
    rfl
  | .index _ index .. => by
    simp [elementAddress_specialized hc, lowerExpression_specialized hc index]
  | .dereference ptr .. => by
    simp [resolveScalar_specialized hc, lowerExpression_specialized hc ptr]
  | .convert operand .. => by
    simp [resolveScalar_specialized hc, lowerExpression_specialized hc operand]
    rfl
  | .ternary cond ifTrue ifFalse .. => by
    simp [resolveScalar_specialized hc, lowerExpression_specialized hc cond, lowerExpression_specialized hc ifTrue,
      lowerExpression_specialized hc ifFalse]

theorem lowerArguments_specialized (hc : ctx.Closed) : ∀ args : List Expression,
    lowerArguments ctx.specialized (mapArguments (·.specialize ctx.bindings) args) = lowerArguments ctx args
  | [] => rfl
  | arg :: rest => by
    simp [lowerExpression_specialized hc arg, lowerArguments_specialized hc rest]

end

/-! ## Lowering statements that are written out -/

section
variable (hc : ctx.Closed)
include hc

theorem declareVariable_specialized (name : String) (type : Ty) (site : Option Location) :
    declareVariable ctx.specialized name (type.specialize ctx.bindings) site = declareVariable ctx name type site := by
  simp only [declareVariable, resolveScalar_specialized hc]

theorem lowerAssignment_specialized (target : Assignee) (value : Expression) (site : Option Location) :
    lowerAssignment ctx.specialized (target.mapTypes (·.specialize ctx.bindings))
        (value.mapTypes (·.specialize ctx.bindings)) site = lowerAssignment ctx target value site := by
  cases target with
  | global name =>
    simp [Assignee.mapTypes, lowerAssignment, lowerExpression_specialized hc]
    refine findGlobal_congr ctx name fun g hg => ?_
    rw [resolveScalar_concrete (hc.globals g hg)]
  | unknown => rfl
  | _ => simp [Assignee.mapTypes, lowerAssignment, lowerExpression_specialized hc, elementAddress_specialized hc]

theorem lowerForHead_specialized (name : String) (type : Ty) (first limit : Expression) (site : Option Location) :
    lowerForHead ctx.specialized name (type.specialize ctx.bindings) (first.mapTypes (·.specialize ctx.bindings))
        (limit.mapTypes (·.specialize ctx.bindings)) site = lowerForHead ctx name type first limit site := by
  simp only [lowerForHead, lowerExpression_specialized hc, declareVariable_specialized hc]
  rfl

/-- A call that stands as a statement may give no result. -/
theorem lowerStatement_expression_specialized (value : Expression) (site : Option Location) :
    lowerStatement ctx.specialized (.expression (value.mapTypes (·.specialize ctx.bindings)) site) =
      lowerStatement ctx (.expression value site) := by
  have heq := lowerExpression_specialized hc value
  cases value with
  | call => simp [lowerCall_specialized hc, lowerArguments_specialized hc]
  | _ =>
    simp only [Expression.mapTypes] at heq
    simp only [Expression.mapTypes, lowerStatement, heq]

end

mutual

theorem lowerStatement_specialized (hc : ctx.Closed) : ∀ stmt : Statement,
    lowerStatement ctx.specialized (stmt.mapTypes (·.specialize ctx.bindings)) = lowerStatement ctx stmt
  | .declaration _ _ none _ | .declaration _ _ (some _) _ => by
    simp [declareVariable_specialized hc, lowerExpression_specialized hc]
  | .assignment .. => by
    simp [lowerAssignment_specialized hc]
  | .increment .. | .decrement .. | .ret none _ | .unknown _ => rfl
  | .expression value site => lowerStatement_expression_specialized hc value site
  | .ret (some value) _ => by
    simp [lowerExpression_specialized hc]
  | .conditional _ whenTrue none _ => by
    simp [lowerExpression_specialized hc, lowerStatements_specialized hc whenTrue]
  | .conditional _ whenTrue (some whenFalse) _ => by
    simp [lowerExpression_specialized hc, lowerStatements_specialized hc whenTrue,
      lowerStatements_specialized hc whenFalse]
  | .whileLoop _ body _ => by
    simp [lowerExpression_specialized hc, lowerStatements_specialized hc body]
  | .forLoop _ _ _ _ body _ => by
    simp [lowerForHead_specialized hc, lowerStatements_specialized hc body]

theorem lowerStatements_specialized (hc : ctx.Closed) : ∀ stmts : List Statement,
    lowerStatements ctx.specialized (mapStatements (·.specialize ctx.bindings) stmts) = lowerStatements ctx stmts
  | [] => rfl
  | stmt :: rest => by
    simp [lowerStatement_specialized hc stmt, lowerStatements_specialized hc rest]

end

/-! ## Lowering functions that are written out -/

theorem lowerParameters_specialized (hc : ctx.Closed) (parameters : List Source.Parameter) :
    lowerParameters ctx.specialized (parameters.map fun p => ⟨p.name, p.type.specialize ctx.bindings⟩) =
      lowerParameters ctx parameters := by
  induction parameters with
  | nil => rfl
  | cons p _ ih => simp only [map_cons, lowerParameters, resolveScalar_specialized hc, ih]

/-- Lowering a function under bindings, and lowering it written out for them, are the same action. -/
theorem lowerFunction_specialized (hc : ctx.Closed) (symbol : Symbol) :
    lowerFunction ctx.specialized symbol = lowerFunction ctx symbol := by
  have hsignature : lowerParameters ctx.specialized ctx.specialized.declaration.parameters =
      lowerParameters ctx ctx.declaration.parameters :=
    lowerParameters_specialized hc _
  have hblock : lowerStatements ctx.specialized ctx.specialized.declaration.body =
      lowerStatements ctx ctx.declaration.body :=
    lowerStatements_specialized hc _
  unfold lowerFunction
  rw [hsignature, hblock]
  refine bind_congr fun parameters => check_substitute_specialized hc _ fun t ht => ?_
  simp only [resolveScalar_concrete ht]
  rfl

/-- The bindings of type arguments leave no type parameter. -/
theorem closed_of_bindTypeParameters {module}
    (hargs : ∀ t ∈ typeArgs, t.IsConcrete) (hglobals : ∀ g ∈ module.globals, g.type.IsConcrete) (name : String) :
    Context.Closed ⟨module, module.globals.map (·.lower module.name), decl, name,
      bindTypeParameters template typeArgs⟩ where
  bindings param bound hbound := hargs bound (of_mem_zip (Assoc.mem_of_get?_ofPairs hbound)).2
  globals g hg := by
    obtain ⟨declared, hdeclared, rfl⟩ := mem_map.mp hg
    exact hglobals declared hdeclared

/-- Instantiating a template is the same as lowering the copy that is written out for the type arguments: from
the same state it gives the same procedure or the same refusal, with the same strings and the same requests for
instances in the same order. A type parameter that is bound to nothing is refused alike. -/
theorem lowerFunction_template {module : Source.Module} {template : Source.Declaration} {typeArguments : List Ty}
    (harguments : ∀ t ∈ typeArguments, t.IsConcrete) (hglobals : ∀ g ∈ module.globals, g.type.IsConcrete)
    (symbol : Symbol) :
    let globals := module.globals.map (·.lower module.name)
    let bindings := bindTypeParameters template typeArguments
    (∀ name s, (lowerFunction ⟨module, globals, template, name, bindings⟩ symbol).result s =
      (lowerFunction ⟨module, globals, template.specialize bindings, name, []⟩ symbol).result s) ∧
    ∀ b, lowerOrRecord module globals template symbol bindings b =
      lowerOrRecord module globals (template.specialize bindings) symbol [] b := by
  intro globals bindings
  have heq : ∀ name, lowerFunction ⟨module, globals, template.specialize bindings, name, []⟩ symbol =
      lowerFunction ⟨module, globals, template, name, bindings⟩ symbol := by
    intro name
    exact lowerFunction_specialized (closed_of_bindTypeParameters harguments hglobals name) symbol
  constructor
  · intro _ s
    rw [heq]
  · intro b
    unfold lowerOrRecord
    simp only [heq]

/-- Adds one to what another template makes of its argument. -/
def successor : Source.Declaration :=
  let t := Ty.parameter "T"
  { name := "successor"
    typeParameters := ["T"]
    parameters := [⟨"x", t⟩]
    returnType := t
    body := [.declaration "y" t (some (.call (.generic "same" [.pointer t]) [.identifier "x" t none] t none)) none,
      .ret (some (.binary "+" (.identifier "y" t none) (.number 1 t none) t none)) none]
    smc := false
    site := none }

/-- For bytes the copy has registers for bytes only, and asks for the other template at pointers to bytes. -/
theorem successor_lowerFunction_template :
    let same : Source.Declaration := ⟨"same", ["T"], [⟨"x", .parameter "T"⟩], .parameter "T", [], false, none⟩
    let module : Module := ⟨"M", [same, successor], []⟩
    let start : Build := ⟨⟨[], .empty "M" ⟨⟨8, "8"⟩, ⟨8, "8"⟩⟩⟩, [], false⟩
    let symbol : Symbol := ⟨"M", "successor", [.u8]⟩
    let built := lowerOrRecord module [] (successor.specialize [("T", .u8)]) symbol [] start
    built.1.toOption.map (·.map (·.registers.map (·.type))) = some (some [.u8, .u8, .u8, .u8, .u8, .u8, .u8]) ∧
      built.2.shared.cache.instances.map (·.typeArguments) = [[.pointer .u8]] ∧
      lowerOrRecord module [] successor symbol [("T", .u8)] start = built := by
  refine ⟨by decide +kernel, by decide +kernel, (@lowerFunction_template _ successor [.u8] ?_ ?_ _).2 _⟩
  · simp [Ty.IsConcrete, Ty.u8, Ty.mentions]
  · simp

end Lower

end Retarget
