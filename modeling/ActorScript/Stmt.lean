import ActorScript.Expr.Basic

/-! # Statements
-/

namespace ActorScript

inductive JumpKind where
  | break | continue
  deriving DecidableEq, Repr

def JumpKind.keyword : JumpKind → String
  | .break => "break"
  | .continue => "continue"

inductive Stmt where
  | nop (span : Span)
  | expr (span : Span) (value : Expr)
  /-- Statements in order, without a scope of their own. -/
  | sequence (span : Span) (body : List Stmt)
  /-- A block with the local variables declared directly in it. -/
  | block (span : Span) (body : List Stmt) (locals : List LocalId)
  | branch (span : Span) (cond : Expr) (whenTrue whenFalse : Option Stmt)
  | whileLoop (span : Span) (cond : Expr) (body : Stmt)
  | doWhile (span : Span) (body : Stmt) (cond : Expr)
  | forLoop (span : Span) (first : Option Stmt) (cond : Option Expr) (step : Option Stmt)
      (body : Stmt)
  | jump (span : Span) (kind : JumpKind)
  | ret (span : Span) (value : Option Expr)
  | declare (span : Span) (name type : String) (value : Option Expr) (id : Option LocalId)

namespace Stmt

def span : Stmt → Span
  | nop s | expr s _ | sequence s _ | block s _ _ | branch s _ _ _ | whileLoop s _ _
  | doWhile s _ _ | forLoop s _ _ _ _ | jump s _ | ret s _ | declare s _ _ _ _ => s

mutual

def isEmpty : Stmt → Bool
  | nop _ => true
  | sequence _ body => allEmpty body
  | block _ body _ => allEmpty body
  | _ => false

def allEmpty : List Stmt → Bool
  | [] => true
  | s :: rest => s.isEmpty && allEmpty rest

end

end Stmt

end ActorScript
