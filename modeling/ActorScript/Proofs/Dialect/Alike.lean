import ActorScript.Function

/-! # Trees that differ in quiet conversions

A conversion to an integer remembers whether it was quiet, which tells only whether a warning was
given when it was typed. Trees that are the same but for this have the same types and constants,
and the same code.
-/

namespace ActorScript

namespace Expr

mutual

/-- Same tree with every conversion to an integer quiet. -/
@[simp]
def hush : Expr → Expr
  | constant m value => constant m value
  | identifier m name => identifier m name
  | member m object name => member m object.hush name
  | call m name rng args => call m name rng (hushAll args)
  | memberCall m object name args => memberCall m object.hush name (hushAll args)
  | explicitCast m operand target => explicitCast m operand.hush target
  | typeCast m operand target quiet => typeCast m operand.hush target quiet
  | cast m kind operand => cast m kind operand.hush
  | intCast m operand _ => intCast m operand.hush true
  | classCast m operand target => classCast m operand.hush target
  | unary m op operand => unary m op operand.hush
  | storage m op operand => storage m op operand.hush
  | step m op before operand => step m op before operand.hush
  | assign m target value => assign m target.hush value.hush
  | assigned m => assigned m
  | binary m op left right => binary m op left.hush right.hush
  | logical m op left right => logical m op left.hush right.hush
  | conditional m cond whenTrue whenFalse =>
      conditional m cond.hush whenTrue.hush whenFalse.hush
  | selfRef m => selfRef m
  | localVar m id => localVar m id
  | field m object offset readonly => field m object.hush offset readonly
  | element m array index => element m array.hush index.hush
  | invoke m object f args tail => invoke m (hushOption object) f (hushAll args) tail
  | special m number args tail => special m number (hushAll args) tail
  | floatFn m fn arg => floatFn m fn arg.hush
  | random m float rng low high tail => random m float rng low.hush high.hush tail
  | random2 m rng mask tail => random2 m rng mask.hush tail
  | randomPick m float rng choices => randomPick m float rng (hushAll choices)
  | extremum m op args => extremum m op (hushAll args)
  | abs m operand => abs m operand.hush
  | atan2 m y x => atan2 m y.hush x.hush
  | stateIndex m index => stateIndex m index
  | runtimeState m index tail => runtimeState m index.hush tail
  | stateLabel m text names tail => stateLabel m text names tail

def hushAll : List Expr → List Expr
  | [] => []
  | e :: rest => e.hush :: hushAll rest

def hushOption : Option Expr → Option Expr
  | none => none
  | some e => some e.hush

end

@[simp]
theorem hushAll_eq_map (es : List Expr) : hushAll es = es.map hush := by
  induction es with
  | nil => rfl
  | cons e rest ih => rw [hushAll, ih, List.map_cons]

@[simp]
theorem hushOption_eq_map (o : Option Expr) : hushOption o = o.map hush := by
  cases o <;> rfl

/-! ## What is read of a tree -/

@[simp]
theorem mark_hush (e : Expr) : e.hush.mark = e.mark := by
  cases e <;> rfl

@[simp]
theorem constant?_hush (e : Expr) : e.hush.constant? = e.constant? := by
  cases e <;> rfl

@[simp]
theorem ty_hush (e : Expr) : e.hush.ty = e.ty :=
  congrArg (fun m : Mark => m.ty.getD .error) e.mark_hush

@[simp]
theorem isConstant_hush (e : Expr) : e.hush.isConstant = e.isConstant :=
  congrArg Option.isSome e.constant?_hush

theorem hush_retype (ty : Ty) (e : Expr) : (e.retype ty).hush = e.hush.retype ty := by
  cases e <;> rfl

theorem hush_markTail (e : Expr) : e.markTail.hush = e.hush.markTail := by
  cases e <;> rfl

theorem addressOf?_hush : (e : Expr) →
    e.hush.addressOf? = e.addressOf?.map fun p => (p.1, p.2.hush)
  | element m array index => by
    rw [hush, addressOf?, addressOf?, addressOf?_hush array, Option.map_map, Option.map_map]
    rfl
  | step _ _ true _ | step _ _ false _ => rfl
  | constant .. | identifier .. | member .. | call .. | memberCall .. | explicitCast ..
  | typeCast .. | cast .. | intCast .. | classCast .. | unary .. | storage .. | assign ..
  | assigned .. | binary .. | logical .. | conditional .. | selfRef .. | localVar .. | field ..
  | invoke .. | special .. | floatFn .. | random .. | random2 .. | randomPick .. | extremum ..
  | abs .. | atan2 .. | stateIndex .. | runtimeState .. | stateLabel .. => rfl

/-- Trees that are the same but for quiet conversions. -/
def Alike (e e' : Expr) : Prop :=
  e.hush = e'.hush

namespace Alike

variable {e e' : Expr}

theorem rfl (e : Expr) : e.Alike e :=
  Eq.refl _

variable (h : e.Alike e')

include h

theorem mark : e'.mark = e.mark := by
  rw [← mark_hush e', ← mark_hush e, h]

theorem span : e'.span = e.span :=
  congrArg Mark.span h.mark

theorem ty : e'.ty = e.ty :=
  congrArg (fun m : Mark => m.ty.getD .error) h.mark

theorem constant? : e'.constant? = e.constant? := by
  rw [← constant?_hush e', ← constant?_hush e, h]

theorem isConstant : e'.isConstant = e.isConstant :=
  congrArg Option.isSome h.constant?

theorem isZero : e'.isZero = e.isZero :=
  congrArg (Option.any Constant.isZero) h.constant?

theorem known? : Typing.known? e' = Typing.known? e :=
  congrArg (Option.map Constant.truth) h.constant?

theorem retype (ty : Ty) : (e.retype ty).Alike (e'.retype ty) := by
  rw [Alike, hush_retype, hush_retype, h]

theorem markTail : e.markTail.Alike e'.markTail := by
  rw [Alike, hush_markTail, hush_markTail, h]

theorem cast (m : Mark) (kind : CastKind) : (Expr.cast m kind e).Alike (Expr.cast m kind e') := by
  rw [Alike, hush, hush, h]

theorem intCast (m : Mark) (quiet quiet' : Bool) :
    (Expr.intCast m e quiet).Alike (Expr.intCast m e' quiet') := by
  rw [Alike, hush, hush, h]

theorem classCast (m : Mark) (target : ClassId) :
    (Expr.classCast m e target).Alike (Expr.classCast m e' target) := by
  rw [Alike, hush, hush, h]

theorem unary (m : Mark) (op : UnaryOp) : (Expr.unary m op e).Alike (Expr.unary m op e') := by
  rw [Alike, hush, hush, h]

theorem abs (m : Mark) : (Expr.abs m e).Alike (Expr.abs m e') := by
  rw [Alike, hush, hush, h]

theorem runtimeState (m : Mark) (tail : Bool) :
    (Expr.runtimeState m e tail).Alike (Expr.runtimeState m e' tail) := by
  rw [Alike, hush, hush, h]

theorem binary (m : Mark) (op : BinOp) {r r' : Expr} (hr : r.Alike r') :
    (Expr.binary m op e r).Alike (Expr.binary m op e' r') := by
  rw [Alike, hush, hush, h, hr]

theorem logical (m : Mark) (op : LogicalOp) {r r' : Expr} (hr : r.Alike r') :
    (Expr.logical m op e r).Alike (Expr.logical m op e' r') := by
  rw [Alike, hush, hush, h, hr]

theorem element (m : Mark) {i i' : Expr} (hi : i.Alike i') :
    (Expr.element m e i).Alike (Expr.element m e' i') := by
  rw [Alike, hush, hush, h, hi]

theorem addressOf?_cases : e.addressOf? = none ∧ e'.addressOf? = none ∨
    ∃ writable p p', e.addressOf? = some (writable, p) ∧ e'.addressOf? = some (writable, p') ∧
      p.Alike p' := by
  have hmap : (e.addressOf?.map fun p => (p.1, p.2.hush)) =
      e'.addressOf?.map fun p => (p.1, p.2.hush) := by
    rw [← addressOf?_hush, ← addressOf?_hush, h]
  revert hmap
  rcases e.addressOf? with _ | ⟨writable, p⟩ <;> rcases e'.addressOf? with _ | ⟨writable', p'⟩ <;>
    intro hmap
  · exact .inl ⟨Eq.refl _, Eq.refl _⟩
  · cases hmap
  · cases hmap
  · simp only [Option.map_some, Option.some.injEq, Prod.mk.injEq] at hmap
    obtain ⟨hwritable, hp⟩ := hmap
    exact .inr ⟨writable, p, p', Eq.refl _, by rw [hwritable], hp⟩

end Alike

end Expr

/-! ## Code -/

mutual

theorem Expr.lower_hush : (e : Expr) → e.hush.lower = e.lower
  | .constant .. | .identifier .. | .member .. | .call .. | .memberCall .. | .explicitCast ..
  | .typeCast .. | .storage .. | .assigned .. | .selfRef .. | .localVar .. | .stateIndex ..
  | .stateLabel .. => by simp only [Expr.hush, Expr.lower]
  | .cast _ _ e | .intCast _ e _ | .classCast _ e _ | .unary _ _ e | .step _ _ _ e
  | .field _ e _ _ | .floatFn _ _ e | .random2 _ _ e _ | .abs _ e | .runtimeState _ e _ => by
    simp only [Expr.hush, Expr.lower, Expr.ty_hush, e.lower_hush]
  | .assign _ a b | .binary _ _ a b | .logical _ _ a b | .element _ a b | .random _ _ _ a b _
  | .atan2 _ a b => by
    simp only [Expr.hush, Expr.lower, Expr.ty_hush, Expr.constant?_hush, a.lower_hush,
      b.lower_hush]
  | .conditional _ c a b => by
    simp only [Expr.hush, Expr.lower, c.lower_hush, a.lower_hush, b.lower_hush]
  | .invoke _ object _ args _ => by
    simp only [Expr.hush, Expr.lower, lowerOption_hush object, lowerAll_hush args]
  | .special _ _ args _ => by
    have hconstant : (Expr.hushAll args).map Expr.constant? = args.map Expr.constant? := by simp
    simp only [Expr.hush, Expr.lower, lowerAll_hush args, hconstant]
  | .randomPick _ _ _ args | .extremum _ _ args => by
    simp only [Expr.hush, Expr.lower, lowerAll_hush args]

theorem lowerAll_hush : (es : List Expr) → lowerAll (Expr.hushAll es) = lowerAll es
  | [] => rfl
  | e :: rest => by simp only [Expr.hushAll, lowerAll, e.lower_hush, lowerAll_hush rest]

theorem lowerOption_hush : (o : Option Expr) → lowerOption (Expr.hushOption o) = lowerOption o
  | none => rfl
  | some e => by simp only [Expr.hushOption, lowerOption, e.lower_hush]

end

theorem Expr.Alike.lower {e e' : Expr} (h : e.Alike e') : e'.lower = e.lower := by
  rw [← e'.lower_hush, ← e.lower_hush, h]

/-! ## Statements -/

namespace Stmt

mutual

def hush : Stmt → Stmt
  | nop span => nop span
  | expr span value => expr span value.hush
  | sequence span body => sequence span (hushAll body)
  | block span body locals => block span (hushAll body) locals
  | branch span cond whenTrue whenFalse =>
      branch span cond.hush (hushOption whenTrue) (hushOption whenFalse)
  | whileLoop span cond body => whileLoop span cond.hush body.hush
  | doWhile span body cond => doWhile span body.hush cond.hush
  | forLoop span first cond step body =>
      forLoop span (hushOption first) (cond.map Expr.hush) (hushOption step) body.hush
  | jump span kind => jump span kind
  | ret span value => ret span (value.map Expr.hush)
  | declare span name type value id => declare span name type (value.map Expr.hush) id

def hushAll : List Stmt → List Stmt
  | [] => []
  | s :: rest => s.hush :: hushAll rest

def hushOption : Option Stmt → Option Stmt
  | none => none
  | some s => some s.hush

end

@[simp]
theorem hushAll_eq_map (body : List Stmt) : hushAll body = body.map hush := by
  induction body with
  | nil => rfl
  | cons s rest ih => rw [hushAll, ih, List.map_cons]

@[simp]
theorem hushOption_eq_map (o : Option Stmt) : hushOption o = o.map hush := by
  cases o <;> rfl

mutual

theorem lower_hush : (s : Stmt) → s.hush.lower = s.lower
  | nop _ | jump _ _ | ret _ none | declare _ _ _ none _ | declare _ _ _ (some _) none => by
    simp only [hush, Stmt.lower, Option.map]
  | expr _ value | ret _ (some value) | declare _ _ _ (some value) (some _) => by
    simp only [hush, Stmt.lower, Option.map, Expr.ty_hush, Expr.constant?_hush, value.lower_hush]
  | sequence _ body | block _ body _ => by
    simp only [hush, Stmt.lower, lowerBody_hush body]
  | branch _ cond whenTrue whenFalse => by
    simp only [hush, Stmt.lower, cond.lower_hush, lowerBranch_hush whenTrue,
      lowerBranch_hush whenFalse]
  | whileLoop _ cond body | doWhile _ body cond => by
    simp only [hush, Stmt.lower, Expr.isConstant_hush, Expr.constant?_hush, cond.lower_hush,
      body.lower_hush]
  | forLoop _ first cond step body => by
    simp only [hush, Stmt.lower, ← Expr.hushOption_eq_map, lowerOption_hush cond, body.lower_hush,
      lowerBranch_hush first, lowerBranch_hush step]

theorem lowerBody_hush : (body : List Stmt) → lowerBody (hushAll body) = lowerBody body
  | [] => rfl
  | s :: rest => by simp only [hushAll, lowerBody, s.lower_hush, lowerBody_hush rest]

theorem lowerBranch_hush : (o : Option Stmt) → lowerBranch (hushOption o) = lowerBranch o
  | none => rfl
  | some s => by simp only [hushOption, lowerBranch, s.lower_hush]

end

mutual

theorem isEmpty_hush : (s : Stmt) → s.hush.isEmpty = s.isEmpty
  | sequence _ body | block _ body _ => by simp only [hush, isEmpty, allEmpty_hush body]
  | nop _ | expr .. | branch .. | whileLoop .. | doWhile .. | forLoop .. | jump .. | ret ..
  | declare .. => by simp only [hush, isEmpty]

theorem allEmpty_hush : (body : List Stmt) → allEmpty (hushAll body) = allEmpty body
  | [] => rfl
  | s :: rest => by simp only [hushAll, allEmpty, isEmpty_hush s, allEmpty_hush rest]

end

mutual

theorem endsInReturn_hush : (s : Stmt) → s.hush.endsInReturn = s.endsInReturn
  | sequence _ body | block _ body _ => by
    simp only [hush, Stmt.endsInReturn, lastReturns_hush body]
  | nop _ | expr .. | branch .. | whileLoop .. | doWhile .. | forLoop .. | jump .. | ret ..
  | declare .. => by simp only [hush, Stmt.endsInReturn]

theorem lastReturns_hush : (body : List Stmt) → lastReturns (hushAll body) = lastReturns body
  | [] => rfl
  | [s] => by simp only [hushAll, lastReturns, endsInReturn_hush s]
  | _ :: t :: rest => by
    have ih := lastReturns_hush (t :: rest)
    simpa only [hushAll, lastReturns] using ih

end

def Alike (s s' : Stmt) : Prop :=
  s.hush = s'.hush

namespace Alike

variable {s s' : Stmt} (h : s.Alike s')

include h

theorem lower : s'.lower = s.lower := by
  rw [← s'.lower_hush, ← s.lower_hush, h]

theorem isEmpty : s'.isEmpty = s.isEmpty := by
  rw [← s'.isEmpty_hush, ← s.isEmpty_hush, h]

theorem endsInReturn : s'.endsInReturn = s.endsInReturn := by
  rw [← s'.endsInReturn_hush, ← s.endsInReturn_hush, h]

end Alike

end Stmt

end ActorScript
