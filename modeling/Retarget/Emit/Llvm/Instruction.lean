import Retarget.Numeral
import Retarget.Text

/-!
# LLVM instructions

The instructions that the emitter uses, and how they are written. Types are kept as their texts.
-/
namespace Retarget.Llvm

inductive Name where
  | temporary (number : Nat)
  /-- The only value of a register. -/
  | value (register : Numeral)
  /-- The stack slot of a register. -/
  | slot (register : Numeral)
  /-- The parameter that is bound to a register. -/
  | argument (register : Numeral)
deriving DecidableEq, Repr

inductive Operand where
  | name (name : Name)
  | constant (text : String)
deriving DecidableEq, Repr

inductive Expression where
  | allocate (type : String)
  | load (type : String) (address : Operand)
  | binary (mnemonic type : String) (lhs rhs : Operand)
  | compare (predicate type : String) (lhs rhs : Operand)
  | cast (mnemonic source : String) (value : Operand) (target : String)
  | select (condition : Operand) (type : String) (whenTrue whenFalse : Operand)
  | elementAddress (type : String) (base index : Operand)
  | call (returnType callee : String) (arguments : List (String × Operand))
deriving DecidableEq, Repr

inductive Instruction where
  | define (name : Name) (expression : Expression)
  /-- A call whose result nobody wants. -/
  | evaluate (expression : Expression)
  | store (type : String) (value address : Operand)
  -- Terminators
  | branch (label : String)
  | branchIf (condition : Operand) (whenTrue whenFalse : String)
  | ret (type : String) (value : Operand)
  | retVoid
  | unreachable
deriving DecidableEq, Repr

def Instruction.isTerminator : Instruction → Bool
  | .branch _ | .branchIf _ _ _ | .ret _ _ | .retVoid | .unreachable => true
  | _ => false

def Name.text : Name → String
  | .temporary number => s!"%t{number}"
  | .value register => s!"%r{register}"
  | .slot register => s!"%r{register}.addr"
  | .argument register => s!"%r{register}.arg"

def Operand.text : Operand → String
  | .name n => n.text
  | .constant text => text

def argumentsText (arguments : List (String × Operand)) : String :=
  Text.join ", " (arguments.map fun (type, operand) => type ++ " " ++ operand.text)

def Expression.text : Expression → String
  | .allocate type => s!"alloca {type}"
  | .load type address => s!"load {type}, ptr {address.text}"
  | .binary mnemonic type lhs rhs => s!"{mnemonic} {type} {lhs.text}, {rhs.text}"
  | .compare predicate type lhs rhs => s!"icmp {predicate} {type} {lhs.text}, {rhs.text}"
  | .cast mnemonic source value target => s!"{mnemonic} {source} {value.text} to {target}"
  | .select condition type whenTrue whenFalse =>
    s!"select i1 {condition.text}, {type} {whenTrue.text}, {type} {whenFalse.text}"
  | .elementAddress type base index => s!"getelementptr {type}, ptr {base.text}, i64 {index.text}"
  | .call returnType callee arguments => s!"call {returnType} {callee}({argumentsText arguments})"

def Instruction.text : Instruction → String
  | .define name expression => s!"{name.text} = {expression.text}"
  | .evaluate expression => expression.text
  | .store type value address => s!"store {type} {value.text}, ptr {address.text}"
  | .branch label => s!"br label %{label}"
  | .branchIf condition whenTrue whenFalse =>
    s!"br i1 {condition.text}, label %{whenTrue}, label %{whenFalse}"
  | .ret type value => s!"ret {type} {value.text}"
  | .retVoid => "ret void"
  | .unreachable => "unreachable"

end Retarget.Llvm
