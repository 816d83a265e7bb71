import ActorScript.Typing.Call
import ActorScript.Typing.Storage

/-! # Typing expressions

Settling an expression settles its parts and joins them by the rules of its kind.
Expressions that have a type already stay as they are.
-/

namespace ActorScript

open Typing

namespace Typing

/-- A settled node as it is, and any other by its rule. -/
def unlessTyped (e : Expr) (rule : Typing Expr) : Typing Expr :=
  if e.isTyped then pure e else rule

end Typing

mutual

def Expr.settle : Expr → Typing Expr
  | e@(.constant m value) => unlessTyped e (pure (.ofConstant m.span value))
  | e@(.identifier m name) => unlessTyped e (identifierAt m.span name)
  | e@(.member m object name) => unlessTyped e do
      memberOf m.span (← object.settle) name
  | e@(.call m name rng args) => unlessTyped e do
      match ← calleeOf m.span name rng args.length with
      | .vectorAngle => resultOf m.span .vectorAngle (← settleLastFirst args)
      | callee => resultOf m.span callee (← settleArgs (argumentFor callee) 0 args)
  | e@(.memberCall m object name args) => unlessTyped e do
      let (object, f) ← memberTarget m.span (← object.settle) name
      checkInvoke m.span object.isSome f args.length
      return invoked m.span object f (← settleArgs (invokeArgument f) 0 args) false
  | e@(.explicitCast m operand target) => unlessTyped e do
      let ty ← typeNamed m.span target
      convert m.span (← operand.settle) ty true
  | e@(.typeCast m operand target quiet) => unlessTyped e do
      convert m.span (← operand.settle) target quiet
  | e@(.cast m kind operand) => unlessTyped e do
      castTo kind m.span (← operand.settle)
  | e@(.intCast m operand quiet) => unlessTyped e do
      toInt m.span (← operand.settle) quiet
  | e@(.classCast m operand target) => unlessTyped e do
      toClass m.span (← operand.settle) target
  | e@(.unary m op operand) => unlessTyped e do
      unaryOf m.span op (← operand.settle)
  | e@(.storage m op operand) => unlessTyped e do
      storageOf m.span op (← operand.settle)
  | e@(.step m op before operand) => unlessTyped e do
      stepOf m.span op before (← operand.settle)
  | e@(.assign m target value) => unlessTyped e do
      let target ← target.settle
      let value ← bracket (Scope.pushTarget target.ty) Scope.popTarget value.settle
      assignTo m.span target value
  | e@(.assigned m) => unlessTyped e (assignedAt m.span)
  | e@(.binary m op left right) => unlessTyped e do
      let left ← left.settle
      let right ← right.settle
      binaryOf m.span op left right
  | e@(.logical m op left right) => unlessTyped e do
      let l ← toBool left.span (← left.settle)
      let r ← toBool right.span (← right.settle)
      return foldLogical m.span op l r
  | e@(.conditional m cond whenTrue whenFalse) => unlessTyped e do
      let c ← toBool cond.span (← cond.settle)
      let whenTrue ← whenTrue.settle
      let whenFalse ← whenFalse.settle
      conditionalOf m.span c whenTrue whenFalse
  | e@(.selfRef m) => unlessTyped e (selfAt m.span)
  | e@(.localVar m id) => unlessTyped e (localAt m.span id)
  | e@(.field m _ _ _) => unlessTyped e (reject m.span .memberNeedsObject)
  | e@(.element m array index) => unlessTyped e do
      let array ← array.settle
      let index ← index.settle
      elementOf m.span array index
  | e@(.invoke m object f args tail) => unlessTyped e do
      let object ← settleOption object
      checkInvoke m.span object.isSome f args.length
      return invoked m.span object f (← settleArgs (invokeArgument f) 0 args) tail
  | e@(.special m number args tail) => unlessTyped e do
      let args ← settleArgs (fun index _ => specialArgument number index) 0 args
      return .special (Expr.settled m.span .int) number args tail
  | e@(.floatFn m fn arg) => unlessTyped e do
      floatFnOf m.span fn (← arg.settle)
  | e@(.random m float rng low high tail) => unlessTyped e do
      let l ← numberArgument float low.span (← low.settle)
      let h ← numberArgument float high.span (← high.settle)
      return randomOf m.span float rng l h tail
  | e@(.random2 m rng mask tail) => unlessTyped e do
      let k ← numberArgument false mask.span (← mask.settle)
      return .random2 (Expr.settled m.span .int) rng k tail
  | e@(.randomPick m float rng choices) => unlessTyped e do
      let choices ← settleArgs (fun _ => numberArgument float) 0 choices
      return randomPickOf m.span float rng choices
  | e@(.extremum m op args) => unlessTyped e do
      extremumOf m.span op (← settleArgs (fun _ _ => extremumArgument) 0 args)
  | e@(.abs m operand) => unlessTyped e do
      absoluteOf m.span (← operand.settle)
  | e@(.atan2 m y x) => unlessTyped e do
      let y ← y.settle
      let x ← x.settle
      atan2Of m.span y x
  | e@(.stateIndex m index) => unlessTyped e (stateAt m.span index)
  | e@(.runtimeState m index tail) => unlessTyped e do
      requireAction m.span
      runtimeStateAt m.span (← index.settle) tail
  | e@(.stateLabel m text _ _) => unlessTyped e (labelled m.span text)

def settleOption : Option Expr → Typing (Option Expr)
  | none => return none
  | some e => return some (← e.settle)

/-- Settles arguments from the first on, each prepared for its index and for where it stood. -/
def settleArgs (prepare : Nat → Span → Expr → Typing Expr) (index : Nat) :
    List Expr → Typing (List Expr)
  | [] => return []
  | e :: rest => do
      let first ← prepare index e.span (← e.settle)
      let rest ← settleArgs prepare (index + 1) rest
      return first :: rest

/-- Settles arguments from the last one back. -/
def settleLastFirst : List Expr → Typing (List Expr)
  | [] => return []
  | e :: rest => do
      let rest ← settleLastFirst rest
      let first ← e.settle
      return first :: rest

end

def Expr.settleBool (e : Expr) : Typing Expr := do
  toBool e.span (← e.settle)

end ActorScript
