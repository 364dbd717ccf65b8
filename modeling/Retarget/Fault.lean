import Retarget.Numeral

/-!
# Internal faults

A fault is a state that a well-formed program never leads to. It stops all work, whatever stage it
arises in, and names its cause.
-/
namespace Retarget

inductive Fault where
  /-- A node of no kind that the place named knows how to handle, quoted as JSON. -/
  | unhandled (node place : String)
  -- Types
  | noShortName (parameter : String)
  | unboundParameter (parameter : String)
  | sizeOfParameter
  | unsubstituted (parameter : String)
  | wrapOfPointer
  | expectedPointer (type : String)
  -- Names
  | unresolvedGlobal (name : String)
  | unresolvedIdentifier (name : String)
  | unresolvedFunction (name : String)
  | missingFunction (symbol : String)
  | missingGlobal (name : String)
  | missingLabel (label symbol : String)
  | jumpToMissingLabel (label : String)
  -- Instances
  | instancesLeft (module : String)
  -- Operations
  | arithmeticOnPointer
  | arithmeticOnPointerType (type : String)
  | conversionOfPointer
  | stepOf (step type : String)
  | operatorNotHandled (operator : String)
  -- Blocks
  | emptyBlock
  | conditionalAtEnd (label : String)
  -- Storage
  | noHome (register : Numeral) (symbol : String)
  | noParameterHome (parameter : String)
  | noSlot (register : Numeral) (symbol : String)
  | notClassified (register : Numeral)
  | noByteStorage (bits : Number)
  | noSignExtension (bits : Nat)
  | noMoveSize (bytes : Number)
  | arrayHasNoValueType
  -- Constants
  | nonNullPointer
  | arrayForScalar
  | noInitializer (type : String)
deriving DecidableEq, Repr

namespace Fault

def cause : Fault → String
  | .unhandled node place => s!"{node} unhandled in {place}"
  | .noShortName parameter => s!"type parameter {parameter} has no short name"
  | .unboundParameter parameter => s!"unbound type parameter {parameter}"
  | .sizeOfParameter => "size of unsubstituted type parameter"
  | .unsubstituted parameter => s!"unsubstituted type parameter {parameter}"
  | .wrapOfPointer => "wrap called on pointer"
  | .expectedPointer type => s!"expected a pointer, got {type}"
  | .unresolvedGlobal name => s!"front end passed unresolved global {name}"
  | .unresolvedIdentifier name => s!"front end passed unresolved identifier {name}"
  | .unresolvedFunction name => s!"front end passed unresolved function {name}"
  | .missingFunction symbol => s!"call to missing function {symbol}"
  | .missingGlobal name => s!"address of missing global {name}"
  | .missingLabel label symbol => s!"no label {label} in {symbol}"
  | .jumpToMissingLabel label => s!"jump to missing label {label}"
  | .instancesLeft module => s!"instances left to lower in {module}"
  | .arithmeticOnPointer => "arithmetic on a pointer"
  | .arithmeticOnPointerType type => s!"arithmetic on pointer type {type}"
  | .conversionOfPointer => "numeric conversion involving a pointer"
  | .stepOf step type => s!"{step} of {type}"
  | .operatorNotHandled operator => s!"operator {operator} should have been handled"
  | .emptyBlock => "empty block in blockExits"
  | .conditionalAtEnd label => s!"conditional branch to {label} at the end of the function"
  | .noHome register symbol => s!"r{register} has no home in {symbol}"
  | .noParameterHome parameter => s!"parameter {parameter} has no home"
  | .noSlot register symbol => s!"r{register} has no slot in {symbol}"
  | .notClassified register => s!"r{register} was not classified"
  | .noByteStorage bits => s!"no Z80 storage for {bits} bit values"
  | .noSignExtension bits => s!"no sign extension for {bits} bits"
  | .noMoveSize bytes => s!"no move size for {bytes} bytes"
  | .arrayHasNoValueType => "arrays have no C value type"
  | .nonNullPointer => "non-null pointer constant"
  | .arrayForScalar => "array initializer for a scalar"
  | .noInitializer type => s!"no initializer for {type}"

def message (fault : Fault) : String := s!"Internal compiler error: {fault.cause}"

end Fault

abbrev Checked := Except Fault

end Retarget
