import ActorScript.Diagnostic.Basic

/-! # What is wrong with a script

Every cause for which typing refuses or questions a script, with the code and the
words in which it is reported.
-/

namespace ActorScript

inductive Fault where
  -- conversions
  | cannotConvert (source target : String)
  | cannotConvertTo (what : String)
  | cannotBeClass (source : String)
  | unknownType (name : String)
  | nameAsNumber (text : Option String)
  | truncatedConstant (value : String)
  | truncatedValue
  | unknownColor (text : String)
  | unrelatedClasses (source target : String)
  | classMismatch (name target : String)
  | unknownClass (name : String)
  -- operators
  | numericExpected
  | integerExpected
  | divisionByZero
  | threeWayOperands
  | branchTypes (whenTrue whenFalse : String)
  | sizeOfConstant (what : String)
  | sizeOfValue (what : String)
  | stepOnBool (symbol : String)
  | arrayAssignment
  | structAssignment
  | assignmentTypes
  | noLeftSide
  | notModifiable
  -- names and members
  | unknownIdentifier (name : String)
  | invalidConstant (name : String)
  | notConstant
  | deprecatedMember (name : String)
  | privateMember (name : String)
  | staticMember
  | invalidMember (name : String)
  | memberOutsideFunction
  | memberFromStatic
  | restrictedMember (cls : String)
  | notAnObject (name : String)
  | noSelf
  | memberNeedsObject
  -- arrays and locals
  | arrayIndexType
  | notAnArray
  | arrayIndexRange
  | arrayElementType
  | arrayAddress
  | localType (name type : String)
  | declarationOutsideBlock
  | alreadyDefined (name : String)
  -- calls
  | tooFewArguments (name : String) (expected got : Nat)
  | tooManyArguments (name : String) (expected got : Nat)
  | tooFewParameters (name : String) (expected got : Nat)
  | tooManyParameters (name : String) (expected got : Nat)
  | missingArgument
  | namedGenerator (name : String)
  | callFromStatic (name : String)
  | unknownCall (name : String)
  | unknownFunction (name : String)
  | callOnPointer (name : String)
  | callOnValue (name : String)
  | callNotInherited (cls name : String)
  | callWithoutSelf
  | nameParameter (index : Nat)
  | integerParameter (index : Nat)
  | numericParameter
  | extremumArguments
  -- states
  | negativeStateIndex (index : Int)
  | stateIndexOutsideClass
  | noSuchStateIndex (cls : String) (index : Nat)
  | runtimeStateIndex
  | labelOutsideClass (text : String)
  | labelScope (name : String)
  | labelNotAncestor (name cls : String)
  | unknownLabel
  -- statements
  | jumpOutsideLoop (keyword : String)
  | emptyLoop
  | returnTypes
  /-- A cause given by its code and words. -/
  | other (code text : String)
  deriving DecidableEq, Repr

namespace Fault

def code : Fault → String
  | other code _ => code
  | cannotConvert .. | cannotConvertTo _ | cannotBeClass _ | branchTypes .. | assignmentTypes =>
      Code.incompatibleTypes.id
  | numericExpected => Code.numericExpected.id
  | integerExpected => Code.integerExpected.id
  | truncatedConstant _ | truncatedValue => Code.floatTruncated.id
  | divisionByZero => Code.divisionByZero.id
  | arrayAssignment | structAssignment => Code.aggregateAssignment.id
  | stepOnBool _ => Code.boolOperator.id
  | threeWayOperands => Code.orderNeedsNumbers.id
  | unknownColor _ => Code.unknownColor.id
  | invalidConstant _ | notConstant => Code.notConstant.id
  | unrelatedClasses .. | classMismatch .. => Code.incompatibleClasses.id
  | unknownClass _ => Code.unknownClassName.id
  | nameAsNumber _ => Code.nameAsNumber.id
  | unknownType _ => Code.unknownType.id
  | unknownIdentifier _ => Code.unknownIdentifier.id
  | privateMember _ => Code.privateMember.id
  | deprecatedMember _ => Code.deprecatedMember.id
  | staticMember | memberFromStatic | restrictedMember _ | noSelf => Code.memberNotAccessible.id
  | sizeOfValue _ | noLeftSide | notModifiable => Code.notAddressable.id
  | arrayIndexType | notAnArray | arrayIndexRange | arrayElementType | arrayAddress
  | localType .. => Code.badArray.id
  | declarationOutsideBlock | alreadyDefined _ => Code.badDeclaration.id
  | invalidMember _ | memberOutsideFunction | notAnObject _ | memberNeedsObject =>
      Code.invalidMemberAccess.id
  | sizeOfConstant _ => Code.constantSize.id
  | jumpOutsideLoop _ => Code.jumpOutsideLoop.id
  | emptyLoop => Code.infiniteLoop.id
  | returnTypes => Code.inconsistentReturns.id
  | labelOutsideClass _ | labelScope _ => Code.labelWithoutClass.id
  | labelNotAncestor .. => Code.scopeNotAncestor.id
  | unknownLabel => Code.unknownLabel.id
  | negativeStateIndex _ | stateIndexOutsideClass | noSuchStateIndex .. => Code.badStateIndex.id
  | runtimeStateIndex => Code.runtimeStateIndex.id
  | unknownCall _ | unknownFunction _ => Code.unknownFunction.id
  | tooFewArguments .. | tooManyArguments .. | tooFewParameters .. | tooManyParameters ..
  | missingArgument => Code.argumentCount.id
  | callFromStatic _ | callNotInherited .. | callWithoutSelf => Code.callNeedsObject.id
  | nameParameter _ | integerParameter _ | numericParameter | extremumArguments =>
      Code.badArgument.id
  | namedGenerator _ => Code.namedGenerator.id
  | callOnPointer _ | callOnValue _ => Code.badCallTarget.id

/-- Numbers of arguments as messages give them. -/
def counts (expected got : Nat) : String :=
  "expected " ++ toString expected ++ ", got " ++ toString got

def message : Fault → String
  | cannotConvert source target => "Cannot convert " ++ source ++ " to " ++ target
  | cannotConvertTo what => "Cannot convert to " ++ what
  | cannotBeClass source => "Cannot convert " ++ source ++ " to class type"
  | unknownType name => "Unknown type '" ++ name ++ "'"
  | nameAsNumber (some text) => "Numeric type expected, got \"" ++ text ++ "\""
  | nameAsNumber none => "Numeric type expected, got a name"
  | truncatedConstant value => "Truncation of floating point constant " ++ value
  | truncatedValue => "Truncation of floating point value"
  | unknownColor text => "Unknown color '" ++ text ++ "'"
  | unrelatedClasses source target =>
      "Cannot convert from " ++ source ++ " to " ++ target ++ ": Incompatible class types"
  | classMismatch name target =>
      "class '" ++ name ++ "' is not compatible with '" ++ target ++ "'"
  | unknownClass name => "Unknown class name '" ++ name ++ "'"
  | numericExpected => "Numeric type expected"
  | integerExpected => "Integer type expected"
  | divisionByZero => "Division by 0"
  | threeWayOperands => "<>= expects two numeric operands"
  | branchTypes whenTrue whenFalse =>
      "Incompatible types for ?: operator: " ++ whenTrue ++ " and " ++ whenFalse
  | sizeOfConstant what => "cannot determine " ++ what ++ " of a constant"
  | sizeOfValue what => "Operand must be addressable to determine " ++ what
  | stepOnBool symbol => symbol ++ " is not allowed on type bool"
  | arrayAssignment => "Cannot assign arrays"
  | structAssignment => "Struct assignment not implemented yet"
  | assignmentTypes => "Assignment between incompatible types."
  | noLeftSide => "Compound assignment without a left side"
  | notModifiable => "Expression must be a modifiable value"
  | unknownIdentifier name => "Unknown identifier '" ++ name ++ "'"
  | invalidConstant name => "Invalid constant '" ++ name ++ "'"
  | notConstant => "Expression is not a constant"
  | deprecatedMember name => "Accessing deprecated member variable " ++ name
  | privateMember name => "Private member " ++ name ++ " not accessible"
  | staticMember => "Static members not implemented yet."
  | invalidMember name => "Invalid member identifier '" ++ name ++ "'"
  | memberOutsideFunction => "Cannot resolve class member outside a function"
  | memberFromStatic => "Unable to access class member from static function"
  | restrictedMember cls =>
      "Member variable of " ++ cls ++ " not accessible through restricted self pointer"
  | notAnObject name => "Left side of " ++ name ++ " is not a struct or class"
  | noSelf => "self used outside of a member function"
  | memberNeedsObject => "Member variable requires a class or object"
  | arrayIndexType => "Array index must be integer"
  | notAnArray => "'[]' can only be used with arrays."
  | arrayIndexRange => "Array index out of bounds"
  | arrayElementType => "Only numeric arrays are supported."
  | arrayAddress => "Unable to dereference array."
  | localType name type =>
      "Local variable " ++ name ++ " of type " ++ type ++ " cannot live in a register"
  | declarationOutsideBlock => "Variable declaration outside compound statement"
  | alreadyDefined name => "Local variable " ++ name ++ " already defined"
  | tooFewArguments name expected got =>
      "Insufficient arguments in call to " ++ name ++ ", " ++ counts expected got
  | tooManyArguments name expected got =>
      "Too many arguments in call to " ++ name ++ ", " ++ counts expected got
  | tooFewParameters name expected got =>
      "Not enough parameters for '" ++ name ++ "' (" ++ counts expected got ++ ")"
  | tooManyParameters name expected got =>
      "Too many parameters for '" ++ name ++ "' (" ++ counts expected got ++ ")"
  | missingArgument => "Missing argument"
  | namedGenerator name => "Cannot use named RNGs with " ++ name
  | callFromStatic name => "Call to non-static function " ++ name ++ " from a static context"
  | unknownCall name => "Call to unknown function '" ++ name ++ "'"
  | unknownFunction name => "Unknown function " ++ name
  | callOnPointer name => "Left hand side of " ++ name ++ " must point to a class object"
  | callOnValue name => "Invalid expression on left hand side of " ++ name
  | callNotInherited cls name =>
      "Cannot call non-static function " ++ cls ++ "::" ++ name ++ " from here"
  | callWithoutSelf => "Call to non-static function without a self pointer"
  | nameParameter index => "Name expected for parameter " ++ toString index
  | integerParameter index => "Integer expected for parameter " ++ toString index
  | numericParameter => "numeric value expected for parameter"
  | extremumArguments => "Arguments must be of type int or float"
  | negativeStateIndex index => "Negative state index " ++ toString index
  | stateIndexOutsideClass => "State index used outside a class"
  | noSuchStateIndex cls index =>
      cls ++ ": Attempt to jump to non existing state index " ++ toString index
  | runtimeStateIndex => "Runtime state index is only valid inside action functions"
  | labelOutsideClass text => "State label '" ++ text ++ "' used outside a class"
  | labelScope name => "Unknown class '" ++ name ++ "' in state label"
  | labelNotAncestor name cls => "'" ++ name ++ "' is not an ancestor of '" ++ cls ++ "'"
  | unknownLabel => "Unknown state jump destination"
  | jumpOutsideLoop keyword => "'" ++ keyword ++ "' outside of a loop"
  | emptyLoop => "Infinite empty loop"
  | returnTypes => "All return expressions must deduce to the same type"
  | other _ text => text

end Fault

structure Rejection where
  fault : Fault
  span : Span
  hint : Option String := none
  deriving DecidableEq, Repr

def Rejection.toDiagnostic (r : Rejection) : Diagnostic :=
  { severity := .error
    code := some r.fault.code
    message := r.fault.message
    label := some ⟨r.span, "here"⟩
    suggestion := r.hint }

end ActorScript
