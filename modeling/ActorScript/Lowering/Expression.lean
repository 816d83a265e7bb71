import ActorScript.Lowering.Call
import ActorScript.Lowering.Operator
import ActorScript.Lowering.Storage

/-! # Code for expressions

Every node is lowered from the code of its operands. Nodes that only exist before typing
have no code.
-/

namespace ActorScript

open Lowering

mutual

/-- Emits the code of an expression and tells where its value is. -/
def Expr.lower : Expr → Lowering Place
  | .constant _ value => Lowering.constant value
  | .cast _ kind operand => Lowering.cast kind operand.ty operand.lower
  | .intCast m operand _ => Lowering.intCast (m.ty.getD .error) operand.lower
  | .classCast _ operand target => Lowering.classCast target operand.lower
  | .unary _ op operand => Lowering.unary op operand.lower
  | .step m op before operand => Lowering.step op before m.byAddress operand.ty operand.lower
  | .assign m target value => assignment m.byAddress target.ty target.lower value.lower
  | .assigned m => assignedValue (m.ty.getD .error)
  | .binary m op left right =>
      Lowering.binary op (m.ty.getD .error) left.ty right.ty right.constant? left.lower right.lower
  | .logical _ op left right => Lowering.logical op left.lower right.lower
  | .conditional m cond whenTrue whenFalse =>
      Lowering.conditional (m.ty.getD .error) cond.lower whenTrue.lower whenFalse.lower
  | .selfRef _ => selfPlace
  | .localVar m id => do
      let place ← home id
      return { place with isVariable := m.byAddress }
  | .field m object offset _ =>
      Lowering.field m.byAddress (m.ty.getD .error) offset object.lower
  | .element m array index =>
      Lowering.element m.byAddress array.ty index.constant? array.lower index.lower
  | .invoke _ object function args tail =>
      Lowering.invoke function (lowerOption object) (lowerAll args) tail
  | .special _ number args tail =>
      Lowering.special number ((args.map Expr.constant?).zip (lowerAll args)) tail
  | .floatFn _ fn arg => Lowering.floatFn fn arg.lower
  | .random _ float rng low high tail => Lowering.random float rng low.lower high.lower tail
  | .random2 _ rng mask tail => Lowering.random2 rng mask.lower tail
  | .randomPick _ float rng choices => Lowering.randomPick float rng (lowerAll choices)
  | .extremum m op args => Lowering.extremum (m.ty.getD .error) op (lowerAll args)
  | .abs _ operand => Lowering.abs operand.lower
  | .atan2 _ y x => Lowering.atan2 y.lower x.lower
  | .runtimeState _ index tail => Lowering.runtimeState index.lower tail
  | .stateLabel _ _ names tail => Lowering.stateLabel names tail
  | .identifier _ _ => unresolved "identifier"
  | .member _ _ _ => unresolved "member"
  | .call _ _ _ _ => unresolved "call"
  | .memberCall _ _ _ _ => unresolved "call"
  | .explicitCast _ _ _ => unresolved "cast"
  | .typeCast _ _ _ _ => unresolved "cast"
  | .storage _ _ _ => unresolved "sizeof"
  | .stateIndex _ _ => unresolved "state index"

def lowerAll : List Expr → List (Lowering Place)
  | [] => []
  | e :: rest => e.lower :: lowerAll rest

def lowerOption : Option Expr → Option (Lowering Place)
  | none => none
  | some e => some e.lower

end

end ActorScript
