import Retarget.Proofs.Code.Tree
import Retarget.Proofs.Lower.Yields

/-!
# The code of constructs

What lowering makes of each construct of the source: which parts are lowered one after another, and which
registers, labels and operations stand before, between and behind them. Everything that is shown about
lowering follows from this, by induction over the relations.
-/
namespace Retarget.Lower

open Source

/-- The state with a fresh register and the operation that computes it. -/
def State.computed (s : State) (type : Ty) (operation : Register → Operation) (why : String) : State :=
  (s.allocated type).emitted ⟨operation (s.fresh type), why⟩

/-- The operation that computes a fresh register, as code. -/
def State.computes (s : State) (type : Ty) (operation : Register → Operation) : CodeTree :=
  .plain (operation (s.fresh type))

/-- The state with a new variable, whose home is a fresh register. -/
def State.declared (s : State) (name : String) (type : Ty) : State :=
  ((s.allocated type).bound name (s.fresh type)).noted name type (s.fresh type)

/-! ## Calls and expressions -/

/-- The symbol that a callee stands for. An instance that is new is asked for. -/
inductive Resolves (ctx : Context) (s : State) : Source.Callee → Symbol → State → Prop
  | function {name declaration place}
      (found : ctx.module.functions.zipIdx.find? (·.1.name == name) = some (declaration, place))
      (plain : declaration.typeParameters = []) :
      Resolves ctx s (.function name) ⟨ctx.module.name, declaration.name, []⟩ s
  | generic {name declaration place typeArguments concrete made cache}
      (found : ctx.module.functions.zipIdx.find? (·.1.name == name) = some (declaration, place))
      (substituted : typeArguments.mapM (·.substitute ctx.bindings) = .ok concrete)
      (request : s.shared.cache.instantiate place declaration concrete = .ok (.ok made, cache)) :
      Resolves ctx s (.generic name typeArguments) made.symbol (s.cached cache)

mutual

/-- The code of an expression, and the register that holds its value behind the code. -/
inductive LowersExpression (ctx : Context) : Source.Expression → State → Register → CodeTree → State → Prop
  | number {value x type scalar site s why} (resolved : type.substitute ctx.bindings = .ok scalar)
      (numeric : scalar.isNumeric = true) (encoded : encodeLiteral value scalar = .ok x) :
      LowersExpression ctx (.number value type site) s (s.fresh scalar) (s.computes scalar (.loadImmediate x))
        (s.computed scalar (.loadImmediate x) why)
  | boolean {value site s why} :
      LowersExpression ctx (.boolean value site) s (s.fresh .boolean)
        (s.computes .boolean (.loadImmediate (if value then 1 else 0)))
        (s.computed .boolean (.loadImmediate (if value then 1 else 0)) why)
  | string {value site s t index why} (isInterned : t = s.interned value)
      (place : t.shared.pool.findIdx? (· == value) = some index) :
      LowersExpression ctx (.string value site) s (t.fresh (.pointer .string))
        (t.computes (.pointer .string) (.addressOf (.literal (.natural index))))
        (t.computed (.pointer .string) (.addressOf (.literal (.natural index))) why)
  | identifier {name type site s home why} (bound : s.draft.scope.get? name = some home) :
      LowersExpression ctx (.identifier name type site) s (s.fresh home.type) (s.computes home.type (.move home))
        (s.computed home.type (.move home) why)
  | global {name type scalar site s t g why why'} (found : ctx.globals.find? (·.name == name) = some g)
      (resolved : g.type.substitute ctx.bindings = .ok scalar) (fits : scalar.isScalar = true)
      (isAddressed : t = s.computed (.pointer scalar) (.addressOf (.global g.module g.name)) why) :
      LowersExpression ctx (.global name type site) s (t.fresh scalar)
        (s.computes (.pointer scalar) (.addressOf (.global g.module g.name)) ++
          t.computes scalar (.load (s.fresh (.pointer scalar))))
        (t.computed scalar (.load (s.fresh (.pointer scalar))) why')
  | binary {sign operator left right type scalar site s t u lhs rhs code code' why}
      (known : Operator.ofSymbol? sign = some operator) (resolved : type.substitute ctx.bindings = .ok scalar)
      (fits : scalar.isNumeric = true ∨ scalar = .boolean ∧ operator.isBitwise = true)
      (first : LowersExpression ctx left s lhs code t) (second : LowersExpression ctx right t rhs code' u)
      (leftType : lhs.type = scalar) (rightType : rhs.type = scalar) :
      LowersExpression ctx (.binary sign left right type site) s (u.fresh scalar)
        (code ++ code' ++ u.computes scalar (.binary operator lhs rhs))
          (u.computed scalar (.binary operator lhs rhs) why)
  | comparison {comparison left right site s t u lhs rhs code code' why}
      (first : LowersExpression ctx left s lhs code t) (second : LowersExpression ctx right t rhs code' u)
      (same : lhs.type = rhs.type) (ordered : lhs.type.isPointer = true → comparison = .eq ∨ comparison = .ne) :
      LowersExpression ctx (.comparison comparison left right site) s (u.fresh .boolean)
        (code ++ code' ++ u.computes .boolean (.compare comparison lhs rhs))
        (u.computed .boolean (.compare comparison lhs rhs) why)
  | not {operand site s t source code why} (lower : LowersExpression ctx operand s source code t) :
      LowersExpression ctx (.not operand site) s (t.fresh .boolean)
        (code ++ t.computes .boolean (.testZero source false)) (t.computed .boolean (.testZero source false) why)
  | call {callee arguments type site s t r code} (lower : LowersCall ctx arguments type callee s (some r) code t) :
      LowersExpression ctx (.call callee arguments type site) s r code t
  | index {array index type element site s t address code why}
      (lower : LowersElement ctx array index s address element code t) :
      LowersExpression ctx (.index array index type site) s (t.fresh element)
        (code ++ t.computes element (.load address)) (t.computed element (.load address) why)
  | addressOf {name type site s g why} (found : ctx.globals.find? (·.name == name) = some g) :
      LowersExpression ctx (.addressOf name type site) s (s.fresh (.pointer g.type))
        (s.computes (.pointer g.type) (.addressOf (.global g.module g.name)))
        (s.computed (.pointer g.type) (.addressOf (.global g.module g.name)) why)
  | dereference {pointer type scalar site s t address code why} (resolved : type.substitute ctx.bindings = .ok scalar)
      (fits : scalar.isScalar = true) (lower : LowersExpression ctx pointer s address code t) :
      LowersExpression ctx (.dereference pointer type site) s (t.fresh scalar)
        (code ++ t.computes scalar (.load address)) (t.computed scalar (.load address) why)
  | keep {operand type site s t source code why} (resolved : type.substitute ctx.bindings = .ok source.type)
      (fits : source.type.isScalar = true) (lower : LowersExpression ctx operand s source code t) :
      LowersExpression ctx (.convert operand type site) s (t.fresh source.type)
        (code ++ t.computes source.type (.move source)) (t.computed source.type (.move source) why)
  | convert {operand type scalar site s t source code why} (resolved : type.substitute ctx.bindings = .ok scalar)
      (fits : scalar.isScalar = true) (lower : LowersExpression ctx operand s source code t)
      (pointers : source.type.isPointer = scalar.isPointer) (different : source.type ≠ scalar) :
      LowersExpression ctx (.convert operand type site) s (t.fresh scalar)
        (code ++ t.computes scalar (.convert source)) (t.computed scalar (.convert source) why)
  | ternary
      {condition whenTrue whenFalse type scalar site s t t' u u' v result test first second code code' code'' elseLabel
        endLabel why₁ why₂ why₃ why₄ why₅ why₆}
      (resolved : type.substitute ctx.bindings = .ok scalar) (fits : scalar.isScalar = true)
      (isResult : result = s.fresh scalar) (isElse : elseLabel = s.label "ternary_else")
      (isEnd : endLabel = s.labelled.label "ternary_end")
      (lowerTest : LowersExpression ctx condition (s.allocated scalar).labelled.labelled test code t)
      (startsTrue : t' = t.emitted ⟨.gotoIfFalse test elseLabel, why₁⟩)
      (lowerTrue : LowersExpression ctx whenTrue t' first code' u)
      (startsFalse : u' = ((u.emitted ⟨.move first result, why₂⟩).emitted ⟨.goto endLabel, why₃⟩).emitted
        ⟨.label elseLabel, why₄⟩) (lowerFalse : LowersExpression ctx whenFalse u' second code'' v) :
      LowersExpression ctx (.ternary condition whenTrue whenFalse type site) s result
        (code ++ .branch test elseLabel endLabel (code' ++ .plain (.move first result))
          (code'' ++ .plain (.move second result)))
        ((v.emitted ⟨.move second result, why₅⟩).emitted ⟨.label endLabel, why₆⟩)

/-- The registers of several expressions, lowered from left to right. -/
inductive LowersArguments (ctx : Context) :
    List Source.Expression → State → List Register → CodeTree → State → Prop
  | nil {s} : LowersArguments ctx [] s [] .empty s
  | cons {argument rest s t u r others code code'} (first : LowersExpression ctx argument s r code t)
      (remaining : LowersArguments ctx rest t others code' u) :
      LowersArguments ctx (argument :: rest) s (r :: others) (code ++ code') u

/-- The address of an element of an array: the index is computed first, then the base. -/
inductive LowersElement (ctx : Context) :
    String → Source.Expression → State → Register → Ty → CodeTree → State → Prop
  | element {name index g of element length s t u r base code why why'}
      (found : ctx.globals.find? (·.name == name) = some g) (array : g.type = .array of length)
      (resolved : of.substitute ctx.bindings = .ok element) (fits : element.isScalar = true)
      (lower : LowersExpression ctx index s r code t) (isBase : base = t.fresh (.pointer element))
      (isAddressed : u = t.computed (.pointer element) (.addressOf (.global g.module g.name)) why) :
      LowersElement ctx name index s (u.fresh (.pointer element)) element
        (code ++ t.computes (.pointer element) (.addressOf (.global g.module g.name)) ++
          u.computes (.pointer element) (.arrayIndex base r))
        (u.computed (.pointer element) (.arrayIndex base r) why')

/-- A call, with the register of its result if it has one. -/
inductive LowersCall (ctx : Context) :
    List Source.Expression → Ty → Source.Callee → State → Option Register → CodeTree → State → Prop
  | routine {arguments type routine parameters s t registers code why} (known : routine.parameters? = some parameters)
      (count : parameters.length = arguments.length) (lower : LowersArguments ctx arguments s registers code t) :
      LowersCall ctx arguments type (.routine routine) s none (code ++ .plain (.call (.routine routine) registers none))
        (t.emitted ⟨.call (.routine routine) registers none, why⟩)
  | procedure {arguments type callee symbol s t u registers code why name} (resolves : Resolves ctx s callee symbol t)
      (lower : LowersArguments ctx arguments t registers code u) (void : type.substitute ctx.bindings = .ok .void)
      (text : symbol.text = .ok name) :
      LowersCall ctx arguments type callee s none (code ++ .plain (.call (.function symbol) registers none))
        (u.emitted ⟨.call (.function symbol) registers none, why⟩)
  | function {arguments type callee symbol s t u registers code why name returnType scalar}
      (resolves : Resolves ctx s callee symbol t) (lower : LowersArguments ctx arguments t registers code u)
      (substituted : type.substitute ctx.bindings = .ok returnType) (value : returnType ≠ .void)
      (resolved : returnType.substitute ctx.bindings = .ok scalar) (fits : scalar.isScalar = true)
      (text : symbol.text = .ok name) :
      LowersCall ctx arguments type callee s (some (u.fresh scalar))
        (code ++ u.computes scalar (fun r => .call (.function symbol) registers (some r)))
        (u.computed scalar (fun r => .call (.function symbol) registers (some r)) why)

end

/-! ## Statements -/

inductive LowersAssignment (ctx : Context) (value : Source.Expression) :
    Source.Assignee → State → CodeTree → State → Prop
  | named {name s t r home code why} (lower : LowersExpression ctx value s r code t)
      (bound : t.draft.scope.get? name = some home) :
      LowersAssignment ctx value (.variable name) s (code ++ .plain (.move r home)) (t.emitted ⟨.move r home, why⟩)
  | global {name s t g scalar r address code why why'} (found : ctx.globals.find? (·.name == name) = some g)
      (resolved : g.type.substitute ctx.bindings = .ok scalar) (fits : scalar.isScalar = true)
      (lower : LowersExpression ctx value s r code t) (isAddress : address = t.fresh (.pointer scalar)) :
      LowersAssignment ctx value (.global name) s
        (code ++ t.computes (.pointer scalar) (.addressOf (.global g.module g.name)) ++ .plain (.store address r))
        ((t.computed (.pointer scalar) (.addressOf (.global g.module g.name)) why).emitted ⟨.store address r, why'⟩)
  | index {array index s t u address r element code code' why}
      (lowerTarget : LowersElement ctx array index s address element code t)
      (lower : LowersExpression ctx value t r code' u) :
      LowersAssignment ctx value (.index array index) s (code ++ code' ++ .plain (.store address r))
        (u.emitted ⟨.store address r, why⟩)
  | dereference {pointer s t u address r code code' why} (lowerTarget : LowersExpression ctx pointer s address code t)
      (lower : LowersExpression ctx value t r code' u) :
      LowersAssignment ctx value (.dereference pointer) s (code ++ code' ++ .plain (.store address r))
        (u.emitted ⟨.store address r, why⟩)

/-- The head of a counting loop: the code before the loop, and the code and the register of its condition. -/
inductive LowersForHead (ctx : Context) (name : String) (type : Ty) (first limit : Source.Expression) :
    State → Register → String → String → CodeTree → CodeTree → Register → State → Prop
  | head {s t u v w start bound counter current scalar header exit code code' why₁ why₂ why₃ why₄ why₅}
      (lowerFirst : LowersExpression ctx first s start code t) (lowerLimit : LowersExpression ctx limit t bound code' u)
      (resolved : type.substitute ctx.bindings = .ok scalar) (numeric : scalar.isNumeric = true)
      (same : bound.type = scalar) (isCounter : counter = u.fresh scalar) (isHeader : header = u.label "for")
      (isExit : exit = u.labelled.label "end_for")
      (isStarted : v = ((u.declared name scalar).emitted ⟨.move start counter, why₁⟩).labelled.labelled.emitted
        ⟨.label header, why₂⟩) (isCurrent : current = v.fresh scalar)
      (isRead : w = v.computed scalar (.move counter) why₃) :
      LowersForHead ctx name type first limit s counter header exit (code ++ code' ++ .plain (.move start counter))
        (v.computes scalar (.move counter) ++ w.computes .boolean (.compare .lt current bound)) (w.fresh .boolean)
        ((w.computed .boolean (.compare .lt current bound) why₄).emitted
          ⟨.gotoIfFalse (w.fresh .boolean) exit, why₅⟩)

mutual

inductive LowersStatement (ctx : Context) : Source.Statement → State → CodeTree → State → Prop
  | initialized {name type scalar value site s t r home code why} (lower : LowersExpression ctx value s r code t)
      (resolved : type.substitute ctx.bindings = .ok scalar) (fits : scalar.isScalar = true)
      (isHome : home = t.fresh scalar) :
      LowersStatement ctx (.declaration name type (some value) site) s (code ++ .plain (.move r home))
        ((t.declared name scalar).emitted ⟨.move r home, why⟩)
  | zeroed {name type scalar site s home why} (resolved : type.substitute ctx.bindings = .ok scalar)
      (fits : scalar.isScalar = true) (isHome : home = s.fresh scalar) :
      LowersStatement ctx (.declaration name type none site) s (.plain (.loadImmediate 0 home))
        ((s.declared name scalar).emitted ⟨.loadImmediate 0 home, why⟩)
  | assignment {target value site s t code} (lower : LowersAssignment ctx value target s code t) :
      LowersStatement ctx (.assignment target value site) s code t
  | increment {name site s home why} (bound : s.draft.scope.get? name = some home)
      (numeric : home.type.isNumeric = true) :
      LowersStatement ctx (.increment name site) s (.plain (.step .increment home))
        (s.emitted ⟨.step .increment home, why⟩)
  | decrement {name site s home why} (bound : s.draft.scope.get? name = some home)
      (numeric : home.type.isNumeric = true) :
      LowersStatement ctx (.decrement name site) s (.plain (.step .decrement home))
        (s.emitted ⟨.step .decrement home, why⟩)
  | call {callee arguments type site site' s t result code}
      (lower : LowersCall ctx arguments type callee s result code t) :
      LowersStatement ctx (.expression (.call callee arguments type site) site') s code t
  | expression {value site s t r code} (plain : ∀ callee arguments type site, value ≠ .call callee arguments type site)
      (lower : LowersExpression ctx value s r code t) : LowersStatement ctx (.expression value site) s code t
  | ret {value site s t r code why} (lower : LowersExpression ctx value s r code t) :
      LowersStatement ctx (.ret (some value) site) s (code ++ .plain (.ret (some r))) (t.emitted ⟨.ret (some r), why⟩)
  | retNone {site s why} :
      LowersStatement ctx (.ret none site) s (.plain (.ret none)) (s.emitted ⟨.ret none, why⟩)
  | conditional
      {condition whenTrue whenFalse site s t t' u u' v test code code' code'' elseLabel endLabel why₁ why₂ why₃ why₄}
      (isElse : elseLabel = s.label "else") (isEnd : endLabel = s.labelled.label "end_if")
      (lowerTest : LowersExpression ctx condition s.labelled.labelled test code t)
      (startsTrue : t' = t.emitted ⟨.gotoIfFalse test elseLabel, why₁⟩)
      (lowerTrue : LowersStatements ctx whenTrue t' code' u)
      (startsFalse : u' = ((u.rescoped t').emitted ⟨.goto endLabel, why₂⟩).emitted ⟨.label elseLabel, why₃⟩)
      (lowerFalse : LowersStatements ctx (whenFalse.getD []) u' code'' v) :
      LowersStatement ctx (.conditional condition whenTrue whenFalse site) s
        (code ++ .branch test elseLabel endLabel code' code'') ((v.rescoped u').emitted ⟨.label endLabel, why₄⟩)
  | whileLoop {condition body site s s₁ t t' u test code code' header exit why₁ why₂ why₃ why₄}
      (isHeader : header = s.label "while") (isExit : exit = s.labelled.label "end_while")
      (isStarted : s₁ = s.labelled.labelled.emitted ⟨.label header, why₁⟩)
      (lowerTest : LowersExpression ctx condition s₁ test code t)
      (isBody : t' = t.emitted ⟨.gotoIfFalse test exit, why₂⟩) (lowerBody : LowersStatements ctx body t' code' u) :
      LowersStatement ctx (.whileLoop condition body site) s (.loop header exit code test code')
        (((u.rescoped t').emitted ⟨.goto header, why₃⟩).emitted ⟨.label exit, why₄⟩)
  | forLoop {name type first limit body site s t u counter test header exit code code' code'' why₁ why₂ why₃}
      (lowerHead : LowersForHead ctx name type first limit s counter header exit code code' test t)
      (lowerBody : LowersStatements ctx body t code'' u) :
      LowersStatement ctx (.forLoop name type first limit body site) s
        (code ++ .loop header exit code' test (code'' ++ .plain (.step .increment counter)))
        (((((u.rescoped t).emitted ⟨.step .increment counter, why₁⟩).emitted ⟨.goto header, why₂⟩).emitted
          ⟨.label exit, why₃⟩).rescoped s)

inductive LowersStatements (ctx : Context) : List Source.Statement → State → CodeTree → State → Prop
  | nil {s} : LowersStatements ctx [] s .empty s
  | cons {statement rest s t u code code'} (first : LowersStatement ctx statement s code t)
      (remaining : LowersStatements ctx rest t code' u) :
      LowersStatements ctx (statement :: rest) s (code ++ code') u

end

/-! ## Functions -/

/-- Every parameter gets a register of its own, and its name. -/
inductive LowersParameters (ctx : Context) : List Source.Parameter → State → List Parameter → State → Prop
  | nil {s} : LowersParameters ctx [] s [] s
  | cons {p rest s t scalar others} (resolved : p.type.substitute ctx.bindings = .ok scalar)
      (fits : scalar.isScalar = true)
      (remaining : LowersParameters ctx rest ((s.allocated scalar).bound p.name (s.fresh scalar)) others t) :
      LowersParameters ctx (p :: rest) s (⟨p.name, s.fresh scalar⟩ :: others) t

/-- The end of a function: one that returns nothing gets a return if it has none. -/
inductive Closes (returnType : Ty) (s : State) (code : CodeTree) : CodeTree → State → Prop
  | added {why} (needs : needsReturn returnType s.draft.instructions = true) :
      Closes returnType s code (code ++ .plain (.ret none)) (s.emitted ⟨.ret none, why⟩)
  | kept (needs : needsReturn returnType s.draft.instructions = false) : Closes returnType s code code s

/-- The procedure of a function, and its code. -/
inductive LowersFunction (ctx : Context) (symbol : Symbol) : State → Procedure → CodeTree → State → Prop
  | function {s t u v parameters returnType code code'}
      (lowerParameters : LowersParameters ctx ctx.declaration.parameters s parameters t)
      (resolved : ctx.declaration.returnType.substitute ctx.bindings = .ok returnType)
      (fits : returnType ≠ .void → ∃ scalar, returnType.substitute ctx.bindings = .ok scalar ∧ scalar.isScalar = true)
      (lowerBody : LowersStatements ctx ctx.declaration.body t code u)
      (closes : Closes returnType (u.rescoped t) code code' v) :
      LowersFunction ctx symbol s
        { symbol, parameters, returnType, locals := v.draft.locals, registers := v.draft.registers,
          instructions := v.draft.instructions, smcRequested := ctx.declaration.smc, isTailRecursive := false,
          convention := .standard } code' v

/-! ## Lowering that succeeds gives the code -/

variable {ctx : Context} {s s' : State}

theorem resolves_of_function (hd : Yields (findDeclaration ctx name) s decl t)
    (h : Yields (plainSymbol ctx decl.2 site) t symbol s') : Resolves ctx s (.function name) symbol s' := by
  unfold findDeclaration at hd
  split at hd
  · rename_i found
    simp only [yields_pure] at hd
    obtain ⟨rfl, rfl⟩ := hd
    simp [plainSymbol] at h
    obtain ⟨hplain, rfl, rfl⟩ := h
    exact .function found hplain
  · simp at hd

theorem resolves_of_generic (hd : Yields (findDeclaration ctx name) s decl t)
    (h : Yields (requestInstance ctx decl.1 decl.2 typeArgs) t symbol s') :
    Resolves ctx s (.generic name typeArgs) symbol s' := by
  unfold findDeclaration at hd
  split at hd
  · rename_i found
    simp only [yields_pure] at hd
    obtain ⟨rfl, rfl⟩ := hd
    simp [requestInstance, and_assoc] at h
    obtain ⟨_, hconcrete, result, _, hresult, h⟩ := h
    cases result with
    | ok =>
      simp only [yields_pure] at h
      obtain ⟨rfl, rfl⟩ := h
      exact .generic found hconcrete hresult
    | error => simp only [yields_throw] at h
  · simp at hd

/-- What is known of a list of arguments is known of a call with them. -/
theorem lowersCall_of_callFunction {callee symbol args type site t result} (hr : Resolves ctx s callee symbol t)
    (hlower : ∀ {s regs s'}, Yields (lowerArguments ctx args) s regs s' →
      ∃ code, LowersArguments ctx args s regs code s')
    (h : Yields (callFunction ctx symbol (lowerArguments ctx args) type site) t result s') :
    ∃ code, LowersCall ctx args type callee s result code s' := by
  simp [callFunction, and_assoc] at h
  obtain ⟨_, u, hargs, _, hsub, h⟩ := h
  obtain ⟨_, hargs⟩ := hlower hargs
  obtain ⟨rfl, _, htext, rfl, rfl⟩ | ⟨hvalue, _, hres, hfits, _, htext, rfl, rfl⟩ := h
  · exact ⟨_, .procedure hr hargs hsub htext⟩
  · exact ⟨_, .function hr hargs hsub hvalue hres hfits htext⟩

theorem lowersCall_of_yields {callee args type site result}
    (hlower : ∀ {s regs s'}, Yields (lowerArguments ctx args) s regs s' →
      ∃ code, LowersArguments ctx args s regs code s')
    (h : Yields (lowerCall ctx callee args.length (lowerArguments ctx args) type site) s result s') :
    ∃ code, LowersCall ctx args type callee s result code s' := by
  unfold lowerCall at h
  cases callee with
  | routine =>
    dsimp only at h
    split at h
    · simp at h
    · rename_i params hknown
      simp at h
      obtain ⟨hcount, _, t, hargs, rfl, rfl⟩ := h
      obtain ⟨_, hargs⟩ := hlower hargs
      exact ⟨_, .routine hknown hcount hargs⟩
  | function =>
    simp only [yields_bind] at h
    obtain ⟨_, t, hd, _, u, hsym, h⟩ := h
    exact lowersCall_of_callFunction (resolves_of_function hd hsym) hlower h
  | generic =>
    simp only [yields_bind] at h
    obtain ⟨_, t, hd, _, u, hsym, h⟩ := h
    exact lowersCall_of_callFunction (resolves_of_generic hd hsym) hlower h
  | unknown => simp only [yields_throw] at h

theorem lowersElement_of_yields {name index site address element}
    (hlower : ∀ {s r s'}, Yields (lowerExpression ctx index) s r s' → ∃ code, LowersExpression ctx index s r code s')
    (h : Yields (elementAddress ctx name (lowerExpression ctx index) site) s (address, element) s') :
    ∃ code, LowersElement ctx name index s address element code s' := by
  simp [elementAddress, and_assoc] at h
  obtain ⟨g, hg, h⟩ := h
  split at h
  · rename_i of length harray
    simp [globalAddress, and_assoc] at h
    obtain ⟨hsub, hscalar, r, t, hr, rfl, rfl⟩ := h
    obtain ⟨_, hr⟩ := hlower hr
    exact ⟨_, .element hg harray hsub hscalar hr rfl rfl⟩
  · simp at h

mutual

theorem lowersExpression_of_yields {s s' r} : ∀ e,
    Yields (lowerExpression ctx e) s r s' → ∃ code, LowersExpression ctx e s r code s'
  | .number .., h => by
    simp [lowerExpression, and_assoc] at h
    obtain ⟨_, hres, -, hnumeric, x, hx, rfl, rfl⟩ := h
    exact ⟨_, .number hres hnumeric hx⟩
  | .boolean value _, h => by
    simp [lowerExpression, and_assoc] at h
    obtain ⟨rfl, rfl⟩ := h
    cases value <;> exact ⟨_, .boolean⟩
  | .string .., h => by
    simp [lowerExpression, and_assoc] at h
    obtain ⟨_, hindex, rfl, rfl⟩ := h
    exact ⟨_, .string rfl hindex⟩
  | .identifier .., h => by
    simp [lowerExpression, and_assoc] at h
    obtain ⟨_, hhome, rfl, rfl⟩ := h
    exact ⟨_, .identifier hhome⟩
  | .global .., h => by
    simp [lowerExpression, globalAddress, and_assoc] at h
    obtain ⟨g, hg, _, hres, hfits, rfl, rfl⟩ := h
    exact ⟨_, .global hg hres hfits rfl⟩
  | .binary _ left right .., h => by
    rw [lowerExpression] at h
    split at h
    · simp at h
    · rename_i operator hknown
      simp [lowerBinary, and_assoc] at h
      obtain ⟨lhs, hres, -, t, hfirst, _, u, hsecond, hfits, hright, rfl, rfl⟩ := h
      obtain ⟨_, hfirst⟩ := lowersExpression_of_yields left hfirst
      obtain ⟨_, hsecond⟩ := lowersExpression_of_yields right hsecond
      refine ⟨_, .binary hknown hres ?_ hfirst hsecond rfl hright⟩
      cases hnumeric : lhs.type.isNumeric with
      | true => exact Or.inl rfl
      | false => exact Or.inr (hfits hnumeric)
  | .comparison _ left right _, h => by
    simp [lowerExpression, lowerComparison, and_assoc] at h
    obtain ⟨_, t, hfirst, _, u, hsecond, hsame, hordered, rfl, rfl⟩ := h
    obtain ⟨_, hfirst⟩ := lowersExpression_of_yields left hfirst
    obtain ⟨_, hsecond⟩ := lowersExpression_of_yields right hsecond
    exact ⟨_, .comparison hfirst hsecond hsame fun hptr => Decidable.or_iff_not_imp_left.mpr (hordered hptr)⟩
  | .not operand _, h => by
    simp [lowerExpression, and_assoc] at h
    obtain ⟨_, t, hlower, rfl, rfl⟩ := h
    obtain ⟨_, hlower⟩ := lowersExpression_of_yields operand hlower
    exact ⟨_, .not hlower⟩
  | .call _ args .., h => by
    simp only [lowerExpression, yields_bind] at h
    obtain ⟨result, t, hcall, h⟩ := h
    cases result with
    | none => simp at h
    | some =>
      simp only [yields_pure] at h
      obtain ⟨rfl, rfl⟩ := h
      obtain ⟨code, hcall⟩ := lowersCall_of_yields (lowersArguments_of_yields args) hcall
      exact ⟨code, .call hcall⟩
  | .index _ index .., h => by
    simp only [lowerExpression, yields_bind] at h
    obtain ⟨⟨_, _⟩, t, hlower, h⟩ := h
    simp [and_assoc] at h
    obtain ⟨rfl, rfl⟩ := h
    obtain ⟨_, hlower⟩ := lowersElement_of_yields (lowersExpression_of_yields index) hlower
    exact ⟨_, .index hlower⟩
  | .addressOf .., h => by
    simp [lowerExpression, globalAddress, and_assoc] at h
    obtain ⟨g, hg, rfl, rfl⟩ := h
    exact ⟨_, .addressOf hg⟩
  | .dereference ptr .., h => by
    simp [lowerExpression, and_assoc] at h
    obtain ⟨_, hres, hfits, _, t, hlower, rfl, rfl⟩ := h
    obtain ⟨_, hlower⟩ := lowersExpression_of_yields ptr hlower
    exact ⟨_, .dereference hres hfits hlower⟩
  | .convert operand .., h => by
    simp [lowerExpression, lowerConversion, and_assoc] at h
    obtain ⟨_, hres, hfits, _, t, hlower, hpointers, h⟩ := h
    obtain ⟨_, hlower⟩ := lowersExpression_of_yields operand hlower
    obtain ⟨rfl, rfl, rfl⟩ | ⟨hdifferent, -, -, -, -, rfl, rfl⟩ := h
    · exact ⟨_, .keep hres hfits hlower⟩
    · exact ⟨_, .convert hres hfits hlower hpointers hdifferent⟩
  | .ternary cond whenTrue whenFalse .., h => by
    simp [lowerExpression, and_assoc] at h
    obtain ⟨_, hres, hfits, _, t, htest, _, u, hfirst, _, v, hsecond, rfl, rfl⟩ := h
    obtain ⟨_, htest⟩ := lowersExpression_of_yields cond htest
    obtain ⟨_, hfirst⟩ := lowersExpression_of_yields whenTrue hfirst
    obtain ⟨_, hsecond⟩ := lowersExpression_of_yields whenFalse hsecond
    exact ⟨_, .ternary hres hfits rfl rfl rfl htest rfl hfirst rfl hsecond⟩
  | .unknown .., h => by simp [lowerExpression] at h

theorem lowersArguments_of_yields {s s' regs} : ∀ args,
    Yields (lowerArguments ctx args) s regs s' → ∃ code, LowersArguments ctx args s regs code s'
  | [], h => by
    simp only [lowerArguments, yields_pure] at h
    obtain ⟨rfl, rfl⟩ := h
    exact ⟨_, .nil⟩
  | arg :: rest, h => by
    simp only [lowerArguments, yields_bind, yields_pure] at h
    obtain ⟨r, t, hfirst, _, u, hothers, rfl, rfl⟩ := h
    obtain ⟨_, hfirst⟩ := lowersExpression_of_yields arg hfirst
    obtain ⟨_, hothers⟩ := lowersArguments_of_yields rest hothers
    exact ⟨_, .cons hfirst hothers⟩

end

@[simp] theorem yields_declareVariable :
    Yields (declareVariable ctx name type site) s r s' ↔
      ∃ scalar, type.substitute ctx.bindings = .ok scalar ∧ scalar.isScalar = true ∧ r = s.fresh scalar ∧
        s' = s.declared name scalar := by
  simp [declareVariable, and_assoc]
  exact exists_congr fun scalar => and_congr_right fun _ => and_congr_right fun _ => and_comm

theorem lowersAssignment_of_yields (h : Yields (lowerAssignment ctx target value site) s u s') :
    ∃ code, LowersAssignment ctx value target s code s' := by
  unfold lowerAssignment at h
  cases target with
  | «variable» name =>
    simp [and_assoc] at h
    obtain ⟨r, t, hlower, _, hbound, rfl⟩ := h
    obtain ⟨_, hlower⟩ := lowersExpression_of_yields value hlower
    exact ⟨_, .named hlower hbound⟩
  | global =>
    simp [globalAddress, and_assoc] at h
    obtain ⟨g, hg, _, hres, hfits, r, t, hlower, rfl⟩ := h
    obtain ⟨_, hlower⟩ := lowersExpression_of_yields value hlower
    exact ⟨_, .global hg hres hfits hlower rfl⟩
  | index _ index =>
    simp only [yields_bind] at h
    obtain ⟨⟨_, _⟩, t, htarget, r, v, hlower, h⟩ := h
    rw [yields_emit] at h
    subst h
    obtain ⟨_, htarget⟩ := lowersElement_of_yields (lowersExpression_of_yields index) htarget
    obtain ⟨_, hlower⟩ := lowersExpression_of_yields value hlower
    exact ⟨_, .index htarget hlower⟩
  | dereference ptr =>
    simp at h
    obtain ⟨_, t, htarget, r, v, hlower, rfl⟩ := h
    obtain ⟨_, htarget⟩ := lowersExpression_of_yields ptr htarget
    obtain ⟨_, hlower⟩ := lowersExpression_of_yields value hlower
    exact ⟨_, .dereference htarget hlower⟩
  | unknown => simp only [yields_throw] at h

theorem lowersForHead_of_yields
    (h : Yields (lowerForHead ctx name type first limit site) s (counter, header, exit) s') :
    ∃ code code' test, LowersForHead ctx name type first limit s counter header exit code code' test s' := by
  simp [lowerForHead, and_assoc] at h
  obtain ⟨_, t, hfirst, _, u, hlimit, _, hres, -, hnumeric, hsame, rfl, rfl, rfl, rfl⟩ := h
  obtain ⟨_, hfirst⟩ := lowersExpression_of_yields first hfirst
  obtain ⟨_, hlimit⟩ := lowersExpression_of_yields limit hlimit
  exact ⟨_, _, _, .head hfirst hlimit hres hnumeric hsame rfl rfl rfl rfl rfl rfl⟩

mutual

theorem lowersStatement_of_yields {s s' u} : ∀ stmt,
    Yields (lowerStatement ctx stmt) s u s' → ∃ code, LowersStatement ctx stmt s code s'
  | .declaration _ _ none _, h => by
    simp [lowerStatement, and_assoc] at h
    obtain ⟨_, hres, hfits, rfl⟩ := h
    exact ⟨_, .zeroed hres hfits rfl⟩
  | .declaration _ _ (some value) _, h => by
    simp [lowerStatement, and_assoc] at h
    obtain ⟨r, t, hlower, _, hres, hfits, rfl⟩ := h
    obtain ⟨_, hlower⟩ := lowersExpression_of_yields value hlower
    exact ⟨_, .initialized hlower hres hfits rfl⟩
  | .assignment .., h => by
    rw [lowerStatement] at h
    obtain ⟨code, h⟩ := lowersAssignment_of_yields h
    exact ⟨code, .assignment h⟩
  | .increment .., h => by
    simp [lowerStatement, lowerStep, and_assoc] at h
    obtain ⟨_, hbound, hnumeric, rfl⟩ := h
    exact ⟨_, .increment hbound hnumeric⟩
  | .decrement .., h => by
    simp [lowerStatement, lowerStep, and_assoc] at h
    obtain ⟨_, hbound, hnumeric, rfl⟩ := h
    exact ⟨_, .decrement hbound hnumeric⟩
  | .expression value _, h => by
    cases value with
    | call _ args =>
      simp only [lowerStatement, yields_bind, yields_pure] at h
      obtain ⟨_, t, hcall, -, rfl⟩ := h
      obtain ⟨code, hcall⟩ := lowersCall_of_yields (lowersArguments_of_yields args) hcall
      exact ⟨code, .call hcall⟩
    | _ =>
      simp only [lowerStatement, yields_bind, yields_pure] at h
      obtain ⟨r, t, hlower, -, rfl⟩ := h
      obtain ⟨code, hlower⟩ := lowersExpression_of_yields _ hlower
      exact ⟨code, .expression (by simp) hlower⟩
  | .ret none _, h => by
    simp only [lowerStatement, yields_emit] at h
    subst h
    exact ⟨_, .retNone⟩
  | .ret (some value) _, h => by
    simp [lowerStatement] at h
    obtain ⟨r, t, hlower, rfl⟩ := h
    obtain ⟨_, hlower⟩ := lowersExpression_of_yields value hlower
    exact ⟨_, .ret hlower⟩
  | .conditional cond whenTrue none _, h => by
    simp [lowerStatement, and_assoc] at h
    obtain ⟨_, t, htest, v, htrue, rfl⟩ := h
    obtain ⟨_, htest⟩ := lowersExpression_of_yields cond htest
    obtain ⟨_, htrue⟩ := lowersStatements_of_yields whenTrue htrue
    have hfalse : ∀ t, LowersStatements ctx (none.getD []) t .empty t := fun t => .nil
    exact ⟨_, .conditional rfl rfl htest rfl htrue rfl (hfalse _)⟩
  | .conditional cond whenTrue (some stmts) _, h => by
    simp [lowerStatement, and_assoc] at h
    obtain ⟨_, t, htest, v, htrue, w, hfalse, rfl⟩ := h
    obtain ⟨_, htest⟩ := lowersExpression_of_yields cond htest
    obtain ⟨_, htrue⟩ := lowersStatements_of_yields whenTrue htrue
    obtain ⟨_, hfalse⟩ := lowersStatements_of_yields stmts hfalse
    exact ⟨_, .conditional rfl rfl htest rfl htrue rfl hfalse⟩
  | .whileLoop cond body _, h => by
    simp [lowerStatement, and_assoc] at h
    obtain ⟨_, t, htest, v, hbody, rfl⟩ := h
    obtain ⟨_, htest⟩ := lowersExpression_of_yields cond htest
    obtain ⟨_, hbody⟩ := lowersStatements_of_yields body hbody
    exact ⟨_, .whileLoop rfl rfl rfl htest rfl hbody⟩
  | .forLoop _ _ _ _ body _, h => by
    simp [lowerStatement, and_assoc] at h
    obtain ⟨_, _, _, t, hhead, v, hbody, rfl⟩ := h
    obtain ⟨_, _, _, hhead⟩ := lowersForHead_of_yields hhead
    obtain ⟨_, hbody⟩ := lowersStatements_of_yields body hbody
    exact ⟨_, .forLoop hhead hbody⟩
  | .unknown _, h => by simp [lowerStatement] at h

theorem lowersStatements_of_yields {s s' u} : ∀ stmts,
    Yields (lowerStatements ctx stmts) s u s' → ∃ code, LowersStatements ctx stmts s code s'
  | [], h => by
    simp only [lowerStatements, yields_pure] at h
    obtain ⟨-, rfl⟩ := h
    exact ⟨_, .nil⟩
  | stmt :: rest, h => by
    simp only [lowerStatements, yields_bind] at h
    obtain ⟨_, t, hfirst, hothers⟩ := h
    obtain ⟨_, hfirst⟩ := lowersStatement_of_yields stmt hfirst
    obtain ⟨_, hothers⟩ := lowersStatements_of_yields rest hothers
    exact ⟨_, .cons hfirst hothers⟩

end

theorem lowersParameters_of_yields {params result} (h : Yields (lowerParameters ctx params) s result s') :
    LowersParameters ctx params s result s' := by
  induction params generalizing s result with
  | nil =>
    simp only [lowerParameters, yields_pure] at h
    obtain ⟨rfl, rfl⟩ := h
    exact .nil
  | cons p _ ih =>
    simp [lowerParameters, and_assoc] at h
    obtain ⟨_, hres, hfits, _, hothers, rfl⟩ := h
    exact .cons hres hfits (ih hothers)

theorem lowersFunction_of_yields {symbol f} (h : Yields (lowerFunction ctx symbol) s f s') :
    ∃ code, LowersFunction ctx symbol s f code s' := by
  simp [lowerFunction, and_assoc] at h
  obtain ⟨_, t, hparameters, _, hreturn, h⟩ := h
  have hparameters := lowersParameters_of_yields hparameters
  obtain ⟨hvoid, u, hbody, h⟩ | ⟨-, scalar, hscalar, hfits, u, hbody, h⟩ := h <;>
    obtain ⟨code, hbody⟩ := lowersStatements_of_yields _ hbody <;>
    obtain ⟨hneeds, rfl, rfl⟩ | ⟨hneeds, rfl, rfl⟩ := h
  · exact ⟨_, .function hparameters hreturn (absurd hvoid) hbody (.added hneeds)⟩
  · exact ⟨_, .function hparameters hreturn (absurd hvoid) hbody (.kept hneeds)⟩
  · exact ⟨_, .function hparameters hreturn (fun _ => ⟨scalar, hscalar, hfits⟩) hbody (.added hneeds)⟩
  · exact ⟨_, .function hparameters hreturn (fun _ => ⟨scalar, hscalar, hfits⟩) hbody (.kept hneeds)⟩

end Retarget.Lower
