import ActorScript.Expr.Operator
import ActorScript.Source.Span
import ActorScript.World.Basic

/-! # Expressions

One tree serves from the grammar to code generation. A node without a type is as
it was written; typing replaces it by a node that has one. A node with a type is
settled and typing leaves it alone.
-/

namespace ActorScript

abbrev LocalId := Nat

structure Mark where
  span : Span
  ty : Option Ty := none
  /-- Whether the place of the value is wanted, and not the value. -/
  byAddress : Bool := false
  deriving DecidableEq, Repr

/-- Conversions that need no more than their operand. -/
inductive CastKind where
  | bool | float | name | string | color | sound
  deriving DecidableEq, Repr

inductive Expr where
  | constant (m : Mark) (value : Constant)
  | identifier (m : Mark) (name : String)
  | member (m : Mark) (object : Expr) (name : String)
  /-- A call by name, perhaps with a named random number generator. -/
  | call (m : Mark) (name : String) (rng : Option String) (args : List Expr)
  | memberCall (m : Mark) (object : Expr) (name : String) (args : List Expr)
  | explicitCast (m : Mark) (operand : Expr) (target : String)
  | typeCast (m : Mark) (operand : Expr) (target : Ty) (quiet : Bool)
  | cast (m : Mark) (kind : CastKind) (operand : Expr)
  | intCast (m : Mark) (operand : Expr) (quiet : Bool)
  | classCast (m : Mark) (operand : Expr) (target : ClassId)
  | unary (m : Mark) (op : UnaryOp) (operand : Expr)
  | storage (m : Mark) (op : StorageOp) (operand : Expr)
  /-- Increment or decrement, whose value is the new one when `before` is set. -/
  | step (m : Mark) (op : StepOp) (before : Bool) (operand : Expr)
  | assign (m : Mark) (target value : Expr)
  /-- The left side of the compound assignment around it. -/
  | assigned (m : Mark)
  | binary (m : Mark) (op : BinOp) (left right : Expr)
  | logical (m : Mark) (op : LogicalOp) (left right : Expr)
  | conditional (m : Mark) (cond whenTrue whenFalse : Expr)
  | selfRef (m : Mark)
  | localVar (m : Mark) (id : LocalId)
  | field (m : Mark) (object : Expr) (offset : Nat) (readonly : Bool)
  | element (m : Mark) (array index : Expr)
  | invoke (m : Mark) (object : Option Expr) (function : Signature) (args : List Expr)
      (tail : Bool)
  | special (m : Mark) (number : Int32) (args : List Expr) (tail : Bool)
  | floatFn (m : Mark) (fn : FloatFn) (arg : Expr)
  /-- A random number in a range, a float one when `float` is set. -/
  | random (m : Mark) (float : Bool) (rng : String) (low high : Expr) (tail : Bool)
  /-- The difference of two random numbers under a mask. -/
  | random2 (m : Mark) (rng : String) (mask : Expr) (tail : Bool)
  | randomPick (m : Mark) (float : Bool) (rng : String) (choices : List Expr)
  | extremum (m : Mark) (op : Extremum) (args : List Expr)
  | abs (m : Mark) (operand : Expr)
  | atan2 (m : Mark) (y x : Expr)
  /-- A state counted from the first of the class. -/
  | stateIndex (m : Mark) (index : Nat)
  | runtimeState (m : Mark) (index : Expr) (tail : Bool)
  /-- A state label; its parts are known once it is typed. -/
  | stateLabel (m : Mark) (text : String) (names : List String) (tail : Bool)

namespace Expr

def mark : Expr → Mark
  | constant m _ | identifier m _ | member m _ _ | call m _ _ _ | memberCall m _ _ _
  | explicitCast m _ _ | typeCast m _ _ _ | cast m _ _ | intCast m _ _ | classCast m _ _
  | unary m _ _ | storage m _ _ | step m _ _ _ | assign m _ _ | assigned m | binary m _ _ _
  | logical m _ _ _ | conditional m _ _ _ | selfRef m | localVar m _ | field m _ _ _
  | element m _ _ | invoke m _ _ _ _ | special m _ _ _ | floatFn m _ _ | random m _ _ _ _ _
  | random2 m _ _ _ | randomPick m _ _ _ | extremum m _ _ | abs m _ | atan2 m _ _
  | stateIndex m _ | runtimeState m _ _ | stateLabel m _ _ _ => m

def withMark (m : Mark) : Expr → Expr
  | constant _ a => constant m a
  | identifier _ a => identifier m a
  | member _ a b => member m a b
  | call _ a b c => call m a b c
  | memberCall _ a b c => memberCall m a b c
  | explicitCast _ a b => explicitCast m a b
  | typeCast _ a b c => typeCast m a b c
  | cast _ a b => cast m a b
  | intCast _ a b => intCast m a b
  | classCast _ a b => classCast m a b
  | unary _ a b => unary m a b
  | storage _ a b => storage m a b
  | step _ a b c => step m a b c
  | assign _ a b => assign m a b
  | assigned _ => assigned m
  | binary _ a b c => binary m a b c
  | logical _ a b c => logical m a b c
  | conditional _ a b c => conditional m a b c
  | selfRef _ => selfRef m
  | localVar _ a => localVar m a
  | field _ a b c => field m a b c
  | element _ a b => element m a b
  | invoke _ a b c d => invoke m a b c d
  | special _ a b c => special m a b c
  | floatFn _ a b => floatFn m a b
  | random _ a b c d e => random m a b c d e
  | random2 _ a b c => random2 m a b c
  | randomPick _ a b c => randomPick m a b c
  | extremum _ a b => extremum m a b
  | abs _ a => abs m a
  | atan2 _ a b => atan2 m a b
  | stateIndex _ a => stateIndex m a
  | runtimeState _ a b => runtimeState m a b
  | stateLabel _ a b c => stateLabel m a b c

def span (e : Expr) : Span := e.mark.span

/-- Type of a settled node, and the error type of any other. -/
def ty (e : Expr) : Ty := e.mark.ty.getD .error

def isTyped (e : Expr) : Bool := e.mark.ty.isSome

def withSpan (span : Span) (e : Expr) : Expr :=
  e.withMark { e.mark with span }

def withTy (ty : Ty) (e : Expr) : Expr :=
  e.withMark { e.mark with ty := some ty }

def requestAddress (e : Expr) : Expr :=
  e.withMark { e.mark with byAddress := true }

def ofConstant (span : Span) (value : Constant) : Expr :=
  .constant { span, ty := some value.ty } value

def constant? : Expr → Option Constant
  | .constant _ value => some value
  | _ => none

def isConstant (e : Expr) : Bool := e.constant?.isSome

def isZero (e : Expr) : Bool :=
  e.constant?.any Constant.isZero

end Expr

end ActorScript
