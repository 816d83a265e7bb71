import ActorScript.Stmt
import ActorScript.Typing.Expression

/-! # Typing statements

Statements are settled in order. Inside a block a rejected statement is reported
and dropped, so that the rest of the block is checked too.
-/

namespace ActorScript

open Typing

/-- A call in return position hands its result straight to the caller. -/
def Expr.markTail : Expr → Expr
  | .invoke m object f args _ => .invoke m object f args true
  | .special m number args _ => .special m number args true
  | .random m float rng low high _ => .random m float rng low high true
  | .random2 m rng mask _ => .random2 m rng mask true
  | .runtimeState m index _ => .runtimeState m index true
  | .stateLabel m text names _ => .stateLabel m text names true
  | e => e

namespace Typing

/-- Value of a local variable that is declared without one. -/
def zeroOf (ty : Ty) : Constant :=
  match ty.bank? with
  | some .float => ⟨ty, .float 0.0⟩
  | some .string => .string ""
  | some .pointer => ⟨ty, .pointer .null⟩
  | _ => ⟨ty, .int 0⟩

def returnedTypes : Option Expr → List Ty
  | none => []
  | some value => if value.ty = .void then [] else [value.ty]

def settleReturn (span : Span) (value : Option Expr) : Typing Stmt := do
  let value ← match value with
    | some e => pure (some (← e.settle).markTail)
    | none => pure none
  noteReturn span (returnedTypes value)
  return .ret span value

/-- The value of a declaration does not see the variable declared. -/
def settleDeclaration (span : Span) (name type : String) (value : Option Expr) : Typing Stmt := do
  let ty ← typeNamed span type
  if ty.bank?.isNone then reject span (.localType name (← describe ty))
  let value ← match value with
    | some e => convert e.span (← e.settle) ty false
    | none => pure ((Expr.ofConstant span (zeroOf ty)).retype ty)
  let id ← declareLocal span name ty
  return .declare span name (← describe ty) (some value) (some id)

def settleCondition : Option Expr → Typing (Option Expr)
  | none => return none
  | some cond => return some (← cond.settleBool)

/-- What is left of a branch when its condition is known. -/
def branchOf (span : Span) (cond : Expr) (whenTrue whenFalse : Option Stmt) : Stmt :=
  match known? cond with
  | some true => whenTrue.getD (.nop span)
  | some false => whenFalse.getD (.nop span)
  | none => .branch span cond whenTrue whenFalse

def warnIfEmpty (span : Span) (body : Stmt) : Typing Unit := do
  if body.isEmpty then warn span .emptyLoop

def whileOf (span : Span) (cond : Expr) (body : Stmt) : Typing Stmt := do
  match known? cond with
  | some false => return .nop span
  | some true =>
      warnIfEmpty span body
      return .whileLoop span cond body
  | none => return .whileLoop span cond body

/-- A loop that tests last. Without jumps, one that ends at once is its body. -/
def doWhileOf (span : Span) (body : Stmt) (jumps : Nat) (cond : Expr) : Typing Stmt := do
  match known? cond with
  | some false => if jumps == 0 then return body else return .doWhile span body cond
  | some true =>
      warnIfEmpty span body
      return .doWhile span body cond
  | none => return .doWhile span body cond

/-- A for loop from its condition and from what settles its step and its body. -/
def forOf (span : Span) (cond : Option Expr) (step : Typing (Option Stmt)) (body : Typing Stmt) :
    Typing Stmt := do
  let cond ← settleCondition cond
  let ((step, body), _) ← inLoop do
    let step ← step
    let body ← body
    return (step, body)
  match cond.bind known? with
  | some false => return .nop span
  | some true =>
      warnIfEmpty span body
      return .forLoop span none none step body
  | none =>
      if cond.isNone then warnIfEmpty span body
      return .forLoop span none cond step body

/-- Reports a rejected statement and goes on without it. -/
def orDrop (x : Typing Stmt) : Typing (Option Stmt) :=
  tryCatch (some <$> x) fun r => do
    modify (Scope.record r.toDiagnostic)
    return none

end Typing

mutual

@[simp] def Stmt.settle : Stmt → Typing Stmt
  | .nop span => return .nop span
  | .expr span value => return .expr span (← value.settle)
  | .sequence span body => return .sequence span (← settleSequence body)
  | .block span body _ => do
      let (body, locals) ← inBlock (settleBlock body)
      return .block span body locals
  | .branch span _ none none => return .nop span
  | .branch span cond whenTrue whenFalse => do
      let cond ← cond.settleBool
      let whenTrue ← settleBranch whenTrue
      let whenFalse ← settleBranch whenFalse
      return branchOf span cond whenTrue whenFalse
  | .whileLoop span cond body => do
      let cond ← cond.settleBool
      let (body, _) ← inLoop body.settle
      whileOf span cond body
  | .doWhile span body cond => do
      let (body, jumps) ← inLoop body.settle
      let cond ← cond.settleBool
      doWhileOf span body jumps cond
  | .forLoop span none cond step body => forOf span cond (settleBranch step) body.settle
  | .forLoop span (some first) cond step body => do
      let ((first, loop), locals) ← inBlock do
        let first ← first.settle
        let loop ← forOf span cond (settleBranch step) body.settle
        return (first, loop)
      return .block span (if loop.isEmpty then [first] else [first, loop]) locals
  | .jump span kind => do
      noteJump span kind.keyword
      return .jump span kind
  | .ret span value => settleReturn span value
  | .declare span name type value _ => settleDeclaration span name type value

@[simp] def settleBranch : Option Stmt → Typing (Option Stmt)
  | none => return none
  | some s => return some (← s.settle)

@[simp] def settleSequence : List Stmt → Typing (List Stmt)
  | [] => return []
  | s :: rest => do
      let first ← s.settle
      let rest ← settleSequence rest
      return first :: rest

/-- Statements of a block, without those that are rejected. -/
@[simp] def settleBlock : List Stmt → Typing (List Stmt)
  | [] => return []
  | s :: rest => do
      let first ← orDrop s.settle
      let rest ← settleBlock rest
      return first.toList ++ rest

end

end ActorScript
