/-! # Diagnostic codes

Every kind of message about a script has a stable code and a summary of one line.
-/

namespace ActorScript

inductive Code where
  | unexpectedCharacter
  | unexpectedToken | unexpectedEnd | malformedLiteral
  | incompatibleTypes | numericExpected | integerExpected | floatTruncated | divisionByZero
  | aggregateAssignment | boolOperator | orderNeedsNumbers | unknownColor | notConstant
  | incompatibleClasses | unknownClassName | nameAsNumber | unknownType
  | unknownIdentifier | privateMember | deprecatedMember | memberNotAccessible | notAddressable
  | badArray | badDeclaration | invalidMemberAccess | constantSize
  | jumpOutsideLoop | infiniteLoop | inconsistentReturns
  | labelWithoutClass | scopeNotAncestor | unknownLabel | badStateIndex | runtimeStateIndex
  | unknownFunction | argumentCount | callNeedsObject | badArgument | namedGenerator
  | badCallTarget
  | codeLimit
  | badEnvironment
  deriving DecidableEq, Repr

namespace Code

def all : List Code :=
  [.unexpectedCharacter, .unexpectedToken, .unexpectedEnd, .malformedLiteral, .incompatibleTypes,
    .numericExpected, .integerExpected, .floatTruncated, .divisionByZero, .aggregateAssignment,
    .boolOperator, .orderNeedsNumbers, .unknownColor, .notConstant, .incompatibleClasses,
    .unknownClassName, .nameAsNumber, .unknownType, .unknownIdentifier, .privateMember,
    .deprecatedMember, .memberNotAccessible, .notAddressable, .badArray, .badDeclaration,
    .invalidMemberAccess, .constantSize, .jumpOutsideLoop, .infiniteLoop, .inconsistentReturns,
    .labelWithoutClass, .scopeNotAncestor, .unknownLabel, .badStateIndex, .runtimeStateIndex,
    .unknownFunction, .argumentCount, .callNeedsObject, .badArgument, .namedGenerator,
    .badCallTarget, .codeLimit, .badEnvironment]

def id : Code → String
  | .unexpectedCharacter => "ACT-L001"
  | .unexpectedToken => "ACT-P001"
  | .unexpectedEnd => "ACT-P002"
  | .malformedLiteral => "ACT-P003"
  | .incompatibleTypes => "ACT-T001"
  | .numericExpected => "ACT-T002"
  | .integerExpected => "ACT-T003"
  | .floatTruncated => "ACT-T004"
  | .divisionByZero => "ACT-T005"
  | .aggregateAssignment => "ACT-T006"
  | .boolOperator => "ACT-T007"
  | .orderNeedsNumbers => "ACT-T008"
  | .unknownColor => "ACT-T009"
  | .notConstant => "ACT-T010"
  | .incompatibleClasses => "ACT-T011"
  | .unknownClassName => "ACT-T012"
  | .nameAsNumber => "ACT-T013"
  | .unknownType => "ACT-T014"
  | .unknownIdentifier => "ACT-R001"
  | .privateMember => "ACT-R002"
  | .deprecatedMember => "ACT-R003"
  | .memberNotAccessible => "ACT-R004"
  | .notAddressable => "ACT-R005"
  | .badArray => "ACT-R006"
  | .badDeclaration => "ACT-R007"
  | .invalidMemberAccess => "ACT-R008"
  | .constantSize => "ACT-R009"
  | .jumpOutsideLoop => "ACT-C001"
  | .infiniteLoop => "ACT-C002"
  | .inconsistentReturns => "ACT-C003"
  | .labelWithoutClass => "ACT-S001"
  | .scopeNotAncestor => "ACT-S002"
  | .unknownLabel => "ACT-S003"
  | .badStateIndex => "ACT-S004"
  | .runtimeStateIndex => "ACT-S005"
  | .unknownFunction => "ACT-F001"
  | .argumentCount => "ACT-F002"
  | .callNeedsObject => "ACT-F003"
  | .badArgument => "ACT-F004"
  | .namedGenerator => "ACT-F005"
  | .badCallTarget => "ACT-F006"
  | .codeLimit => "ACT-E001"
  | .badEnvironment => "ACT-V001"

def summary : Code → String
  | .unexpectedCharacter => "unexpected character"
  | .unexpectedToken => "unexpected token"
  | .unexpectedEnd => "unexpected end of input"
  | .malformedLiteral => "malformed literal"
  | .incompatibleTypes => "incompatible types"
  | .numericExpected => "numeric type expected"
  | .integerExpected => "integer type expected"
  | .floatTruncated => "float truncated to int"
  | .divisionByZero => "division by zero"
  | .aggregateAssignment => "aggregate assignment"
  | .boolOperator => "operator not allowed on bool"
  | .orderNeedsNumbers => "<>= needs numbers"
  | .unknownColor => "unknown color"
  | .notConstant => "not a constant"
  | .incompatibleClasses => "incompatible class types"
  | .unknownClassName => "unknown class name"
  | .nameAsNumber => "name used as a number"
  | .unknownType => "unknown type"
  | .unknownIdentifier => "unknown identifier"
  | .privateMember => "private member"
  | .deprecatedMember => "deprecated member"
  | .memberNotAccessible => "member not accessible here"
  | .notAddressable => "not addressable"
  | .badArray => "bad array or local"
  | .badDeclaration => "bad local declaration"
  | .invalidMemberAccess => "invalid member access"
  | .constantSize => "size of a constant"
  | .jumpOutsideLoop => "jump outside a loop"
  | .infiniteLoop => "infinite empty loop"
  | .inconsistentReturns => "inconsistent return types"
  | .labelWithoutClass => "state label without a class"
  | .scopeNotAncestor => "scope is not an ancestor"
  | .unknownLabel => "unknown state label"
  | .badStateIndex => "bad state index"
  | .runtimeStateIndex => "runtime state index outside an action"
  | .unknownFunction => "unknown function"
  | .argumentCount => "wrong number of arguments"
  | .callNeedsObject => "call needs an object"
  | .badArgument => "bad argument"
  | .namedGenerator => "named RNG not allowed"
  | .badCallTarget => "bad member call target"
  | .codeLimit => "code generation limit"
  | .badEnvironment => "bad environment file"

end Code

end ActorScript
