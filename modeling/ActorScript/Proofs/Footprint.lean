import ActorScript.Proofs.Settled
import ActorScript.Stmt

/-! # What the code of a tree does

Read off a settled tree: where its value is left, which variables its code writes, and whether
some instruction gets an operand that it cannot read.
-/

namespace ActorScript

namespace Expr

/-- Whether the value is left in the constant pool. An assignment to a variable leaves the value
assigned where it was. -/
@[simp] def isPooled : Expr → Bool
  | .constant _ _ => true
  | .assign m target value => !m.byAddress && target.localId?.isSome && value.isPooled
  | _ => false

/-- The variable in whose register the value is left, inside an assignment to `target`. -/
@[simp] def holder? (target : Option LocalId) : Expr → Option LocalId
  | .localVar _ id => some id
  | .step _ _ true operand => operand.localId?
  | .assign _ left value => value.holder? left.localId?
  | .assigned _ => target
  | _ => none

/-- Whether the value is the object that the code runs for, in its register. -/
@[simp] def isSelf : Expr → Bool
  | .selfRef _ => true
  | .assign _ _ value => value.isSelf
  | _ => false

/-- Whether an operator reads a pooled operand as if it were in a register. One pooled operand
goes into the form of the instruction, but a second one does not, and a shift by a pooled amount
is meant to be a shift by a constant. -/
def misreads (op : BinOp) (left right : Expr) : Bool :=
  match op with
  | .shl | .shr | .ushr => !right.isConstant && right.isPooled
  | _ => left.isPooled && right.isPooled

mutual

/-- The variables that the code writes. No code is made for the object of a static call. -/
@[simp] def writes : Expr → List LocalId
  | .cast _ _ e | .intCast _ e _ | .classCast _ e _ | .unary _ _ e | .field _ e _ _
  | .floatFn _ _ e | .random2 _ _ e _ | .abs _ e | .runtimeState _ e _ => e.writes
  | .step _ _ _ e => e.writes ++ e.localId?.toList
  | .assign _ target value => target.writes ++ value.writes ++ target.localId?.toList
  | .binary _ _ a b | .logical _ _ a b | .element _ a b | .random _ _ _ a b _ | .atan2 _ a b =>
      a.writes ++ b.writes
  | .conditional _ c a b => c.writes ++ (a.writes ++ b.writes)
  | .invoke _ object f args _ =>
      (if f.kind = .static then [] else writesOption object) ++ writesAll args
  | .special _ _ args _ | .randomPick _ _ _ args | .extremum _ _ args => writesAll args
  | _ => []

@[simp] def writesAll : List Expr → List LocalId
  | [] => []
  | e :: rest => e.writes ++ writesAll rest

@[simp] def writesOption : Option Expr → List LocalId
  | none => []
  | some e => e.writes

end

mutual

/-- Whether some instruction gets an operand of another kind than it reads. Besides the misread
constants there are moves and stores of what has no value at all. -/
@[simp] def clashes : Expr → Bool
  | .cast _ _ e | .intCast _ e _ | .classCast _ e _ | .unary _ _ e | .field _ e _ _
  | .floatFn _ _ e | .random2 _ _ e _ | .abs _ e | .runtimeState _ e _ | .step _ _ _ e => e.clashes
  | .assign _ target value =>
      target.clashes || value.clashes || value.ty.bank?.isNone
  | .binary _ op a b => a.clashes || b.clashes || misreads op a b
  | .logical _ _ a b | .element _ a b | .random _ _ _ a b _ | .atan2 _ a b =>
      a.clashes || b.clashes
  | .conditional m c a b =>
      c.clashes || a.clashes || b.clashes || m.bank?.isNone
  | .invoke _ object f args _ =>
      (if f.kind = .static then false else clashesOption object) || clashesAny args
  | .special _ _ args _ | .randomPick _ _ _ args | .extremum _ _ args => clashesAny args
  | _ => false

@[simp] def clashesAny : List Expr → Bool
  | [] => false
  | e :: rest => e.clashes || clashesAny rest

@[simp] def clashesOption : Option Expr → Bool
  | none => false
  | some e => e.clashes

end

end Expr

namespace Stmt

mutual

/-- Whether some instruction of a statement gets an operand of another kind than it reads. -/
@[simp] def clashes : Stmt → Bool
  | .nop _ | .jump _ _ => false
  | .expr _ value => value.clashes
  | .sequence _ body | .block _ body _ => clashesAny body
  | .branch _ cond whenTrue whenFalse =>
      cond.clashes || clashesOption whenTrue || clashesOption whenFalse
  | .whileLoop _ cond body | .doWhile _ body cond => cond.clashes || body.clashes
  | .forLoop _ first cond step body =>
      clashesOption first || Expr.clashesOption cond || body.clashes || clashesOption step
  | .ret _ value | .declare _ _ _ value _ => Expr.clashesOption value

@[simp] def clashesAny : List Stmt → Bool
  | [] => false
  | s :: rest => s.clashes || clashesAny rest

@[simp] def clashesOption : Option Stmt → Bool
  | none => false
  | some s => s.clashes

end

end Stmt

end ActorScript
