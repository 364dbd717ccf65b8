import Retarget.Number
import Retarget.Operator

/-!
# Source trees

The resolved and type-checked tree that a front end hands over: every identifier is resolved and every
expression carries its static type. A node of no known kind keeps its JSON text.
-/
namespace Retarget.Source

structure Location where
  line : Number
  column : Number
deriving DecidableEq, Repr

inductive Callee where
  | function (name : String)
  | generic (name : String) (typeArguments : List Ty)
  | routine (routine : Routine)
  | unknown (node : String)
deriving DecidableEq, Repr

/-- Expressions; each ends with its position, where the front end gave one. -/
inductive Expression where
  | number (value : Number) (type : Ty) (site : Option Location)
  | boolean (value : Bool) (site : Option Location)
  | string (value : String) (site : Option Location)
  | identifier (name : String) (type : Ty) (site : Option Location)
  | global (name : String) (type : Ty) (site : Option Location)
  /-- The operator is kept as written: not every one has an instruction. -/
  | binary (operator : String) (lhs rhs : Expression) (type : Ty) (site : Option Location)
  | comparison (comparison : Comparison) (lhs rhs : Expression) (site : Option Location)
  | not (operand : Expression) (site : Option Location)
  | call (callee : Callee) (arguments : List Expression) (type : Ty) (site : Option Location)
  | index (array : String) (index : Expression) (type : Ty) (site : Option Location)
  | addressOf (global : String) (type : Ty) (site : Option Location)
  | dereference (pointer : Expression) (type : Ty) (site : Option Location)
  | convert (operand : Expression) (type : Ty) (site : Option Location)
  | ternary (condition ifTrue ifFalse : Expression) (type : Ty) (site : Option Location)
  | unknown (node : String) (type : Option Ty)
deriving Repr, Inhabited

def Expression.type? : Expression → Option Ty
  | .boolean .. | .comparison .. | .not .. => some .boolean
  | .string .. => some (.pointer .string)
  | .number _ type _ | .identifier _ type _ | .global _ type _ | .binary _ _ _ type _
  | .call _ _ type _ | .index _ _ type _ | .addressOf _ type _ | .dereference _ type _
  | .convert _ type _ | .ternary _ _ _ type _ => some type
  | .unknown _ type => type

inductive Assignee where
  | variable (name : String)
  | global (name : String)
  | index (array : String) (index : Expression)
  | dereference (pointer : Expression)
  | unknown (node : String)
deriving Repr

inductive Statement where
  | declaration (name : String) (type : Ty) (initializer : Option Expression) (site : Option Location)
  | assignment (target : Assignee) (value : Expression) (site : Option Location)
  | increment (name : String) (site : Option Location)
  | decrement (name : String) (site : Option Location)
  | expression (value : Expression) (site : Option Location)
  | ret (value : Option Expression) (site : Option Location)
  | conditional (condition : Expression) (whenTrue : List Statement) (whenFalse : Option (List Statement))
      (site : Option Location)
  | whileLoop (condition : Expression) (body : List Statement) (site : Option Location)
  /-- Counts from the first bound up to, and without, the second. -/
  | forLoop (counter : String) (type : Ty) (first limit : Expression) (body : List Statement)
      (site : Option Location)
  | unknown (node : String)
deriving Repr, Inhabited

structure Parameter where
  name : String
  type : Ty
deriving DecidableEq, Repr

/-- A function; a generic one if it has type parameters. -/
structure Declaration where
  name : String
  typeParameters : List String
  parameters : List Parameter
  returnType : Ty
  body : List Statement
  smc : Bool
  site : Option Location
deriving Repr

inductive GlobalValue where
  | number (value : Number)
  | boolean (value : Bool)
  | list (values : List Number)
deriving DecidableEq, Repr

structure GlobalDeclaration where
  name : String
  type : Ty
  initializer : Option GlobalValue
deriving DecidableEq, Repr

structure Module where
  name : String
  functions : List Declaration
  globals : List GlobalDeclaration
deriving Repr

end Retarget.Source
