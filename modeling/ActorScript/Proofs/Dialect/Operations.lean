import ActorScript.Proofs.Dialect.Run

/-! # Conversions and operators in both dialects

The dialect is asked for in conversions to integers, which the lax one does silently, and in
operations on bits, which only the lax one has for floats. What it tolerates elsewhere is rejected
in the usual dialect.
-/

namespace ActorScript

open Typing

variable {target : ClassId} {name text : String} {ty : Ty} {op : BinOp}

namespace Typing

variable {σ : Setting} {strict : Bool} {span : Span} {x x' l l' r r' : Expr}

/-- Steps that give the same expression but for quiet conversions. -/
abbrev Echoes (σ : Setting) (strict : Bool) (x y : Typing Expr) : Prop :=
  Follows σ strict Expr.hush x y

/-! ## Conversions -/

theorem cannotConvert_echoes {a b : Ty} : Same σ strict Expr.hush (cannotConvert span a b) :=
  .bind .describe fun _ _ _ => .bind .describe fun _ _ _ => .reject

theorem toBool_echoes (h : x.Alike x') : Echoes σ strict (toBool span x) (toBool span x') := by
  unfold toBool
  rw [h.ty, h.constant?]
  split
  · exact .pure h
  split
  · exact .reject
  split
  · exact .pure rfl
  · exact .pure (h.cast _ _)

/-- A conversion may become quiet, but not the other way round. -/
theorem toInt_echoes {quiet quiet' : Bool} (h : x.Alike x') (hquiet : quiet → quiet') :
    Echoes σ strict (toInt span x quiet) (toInt span x' quiet') := by
  unfold toInt
  rw [h.ty, h.constant?]
  split
  · exact .bind .tolerate fun _ _ _ => .pure rfl
  split
  · exact .pure h
  split
  · exact .reject
  cases quiet with
  | true =>
    cases hquiet rfl
    split
    · exact .pure rfl
    · exact .pure (h.intCast _ _ _)
  | false =>
    cases quiet' with
    | false =>
      split
      · exact .whenever .warn (.pure rfl)
      · exact .whenever .warn (.pure (h.intCast _ _ _))
    | true =>
      split
      · simp only [Bool.not_false, Bool.true_and, Bool.not_true, Bool.false_and]
        split
        · exact .silence rfl (.pure rfl)
        · exact .pure rfl
      · exact .silence rfl (.pure (h.intCast _ _ _))

theorem toFloat_echoes (h : x.Alike x') : Echoes σ strict (toFloat span x) (toFloat span x') := by
  unfold toFloat
  rw [h.ty, h.constant?]
  split
  · exact .pure h
  split
  · exact .bind .tolerate fun _ _ _ => .pure rfl
  split
  · exact .reject
  split
  · exact .pure rfl
  · exact .pure (h.cast _ _)

theorem toIntArgument_echoes (h : x.Alike x') :
    Echoes σ strict (toIntArgument span x) (toIntArgument span x') :=
  .read (toInt_echoes h fun _ => rfl)

theorem toName_echoes (h : x.Alike x') : Echoes σ strict (toName span x) (toName span x') := by
  unfold toName
  rw [h.ty, h.constant?]
  split
  · exact .pure h
  · split
    · exact .pure rfl
    · exact .pure (h.cast _ _)
  · exact .reject

theorem toText_echoes (h : x.Alike x') : Echoes σ strict (toText span x) (toText span x') := by
  unfold toText
  rw [h.ty, h.constant?]
  split
  · exact .pure h
  · split
    · exact .reading rfl rfl (.pure rfl)
    · exact .pure (h.cast _ _)
  · split
    · exact .reading rfl rfl (.pure rfl)
    · exact .pure (h.cast _ _)
  · exact .reject

theorem toColor_echoes (h : x.Alike x') : Echoes σ strict (toColor span x) (toColor span x') := by
  unfold toColor
  rw [h.ty, h.constant?]
  split
  · exact .pure h
  · exact .pure (h.retype _)
  · split
    · split
      · exact .pure rfl
      · exact .bind .warn fun _ _ _ => .pure rfl
    · exact .pure (h.cast _ _)
  · exact .reject

theorem toSound_echoes (h : x.Alike x') : Echoes σ strict (toSound span x) (toSound span x') := by
  unfold toSound
  rw [h.ty, h.constant?]
  split
  · exact .pure h
  · exact .pure (h.retype _)
  · split
    · exact .reading rfl rfl (.pure rfl)
    · exact .pure (h.cast _ _)
  · exact .reject

theorem castTo_echoes (kind : CastKind) (h : x.Alike x') :
    Echoes σ strict (castTo kind span x) (castTo kind span x') := by
  unfold castTo
  cases kind with
  | bool => exact toBool_echoes h
  | float => exact toFloat_echoes h
  | name => exact toName_echoes h
  | string => exact toText_echoes h
  | color => exact toColor_echoes h
  | sound => exact toSound_echoes h

theorem classNamed_echoes : Same σ strict Expr.hush (classNamed span target name) := by
  refine .reading rfl rfl ?_
  dsimp only
  split
  · exact .pure rfl
  split
  · exact .bind .tolerate fun _ _ _ => .pure rfl
  · split
    · exact .bind .log fun _ _ _ => .pure rfl
    · exact .reject

theorem classFrom_echoes (h : x.Alike x') :
    Echoes σ strict (classFrom span x target) (classFrom span x' target) := by
  unfold classFrom
  rw [h.ty, h.constant?]
  split
  · exact classNamed_echoes
  · dsimp only
    split
    · exact .bind (toName_echoes h) fun _ _ hx => .pure (Expr.Alike.classCast hx _ _)
    · exact .pure (h.classCast _ _)

theorem toClass_echoes (h : x.Alike x') :
    Echoes σ strict (toClass span x target) (toClass span x' target) := by
  unfold toClass
  rw [h.ty]
  refine .reading rfl rfl ?_
  dsimp only
  split
  · exact .pure (h.retype _)
  · split
    · exact .pure (h.retype _)
    · exact .reject
  · exact classFrom_echoes h
  · exact classFrom_echoes h
  · exact .bind .describe fun _ _ _ => .reject

theorem stateAt_echoes {index : Nat} : Same σ strict Expr.hush (stateAt span index) := by
  refine .reading rfl rfl ?_
  split
  · exact .reject
  · split
    · exact .pure rfl
    · exact .reject

theorem requireAction_follows : Same σ strict id (requireAction span) := by
  refine .reading rfl rfl ?_
  split
  · exact .reject
  · exact .pure rfl

theorem runtimeStateAt_echoes {tail : Bool} (h : x.Alike x') :
    Echoes σ strict (runtimeStateAt span x tail) (runtimeStateAt span x' tail) := by
  unfold runtimeStateAt
  rw [h.ty, h.span]
  split
  · exact .reject
  · dsimp only
    split
    · exact .pure (h.runtimeState _ _)
    · exact .bind (toIntArgument_echoes h) fun _ _ hx => .pure (Expr.Alike.runtimeState hx _ _)

theorem labelScope_follows {cls : ClassId} : Same σ strict id (labelScope span cls name) := by
  refine .reading rfl rfl ?_
  dsimp only
  split
  · exact .pure rfl
  split
  · exact .reject
  · split
    · exact .pure rfl
    · exact .reject

theorem stateFor_echoes {names : List String} {scope : Option ClassId} :
    Same σ strict Expr.hush (stateFor span text names scope) := by
  unfold stateFor
  split
  · exact .pure rfl
  split
  · exact .pure rfl
  · refine .reading rfl rfl ?_
    split
    · exact .pure rfl
    · exact .bind .tolerate fun _ _ _ => .pure rfl

theorem labelled_echoes : Same σ strict Expr.hush (labelled span text) := by
  refine .reading rfl rfl ?_
  split
  · exact .reject
  · dsimp only
    split
    · rw [pure_bind]
      exact stateFor_echoes
    · exact .bind labelScope_follows fun _ _ hscope => by cases hscope; exact stateFor_echoes

theorem toState_echoes (h : x.Alike x') : Echoes σ strict (toState span x) (toState span x') := by
  unfold toState
  rw [h.ty, h.constant?]
  split
  · exact labelled_echoes
  · exact labelled_echoes
  · split
    · exact .reject
    · exact stateAt_echoes
  · exact .bind requireAction_follows fun _ _ _ => runtimeStateAt_echoes h
  · exact cannotConvert_echoes

theorem convert_echoes {target : Ty} {quiet : Bool} (h : x.Alike x') :
    Echoes σ strict (convert span x target quiet) (convert span x' target quiet) := by
  unfold convert
  rw [h.ty, h.span]
  split
  · exact cannotConvert_echoes
  split
  · exact .pure h
  split
  · exact .pure (h.retype _)
  split
  · exact .bind (toFloat_echoes h) fun _ _ hx => .pure (Expr.Alike.retype hx _)
  · exact .bind (toInt_echoes h id) fun _ _ hx => .pure (Expr.Alike.retype hx _)
  · exact toBool_echoes h
  · exact toText_echoes h
  · exact toName_echoes h
  · exact toSound_echoes h
  · exact toColor_echoes h
  · exact toState_echoes h
  · exact toClass_echoes h
  · split
    · refine .reading rfl rfl ?_
      split
      · exact .pure (h.retype _)
      · exact cannotConvert_echoes
    · exact cannotConvert_echoes
  · exact cannotConvert_echoes

/-! ## Operators -/

theorem isIntegral_of_isFloat (h : ty.isFloat = true) : isIntegral ty = false := by
  cases ty <;> simp_all [Ty.isFloat, isIntegral, Ty.bank?]

section Binary

variable (hl : l.Alike l') (hr : r.Alike r')

include hl hr

theorem commonType_follows : Follows σ strict id (commonType l r) (commonType l' r') := by
  unfold commonType
  rw [hl.ty, hr.ty]
  exact .reading rfl rfl (.pure rfl)

theorem bothConstant?_eq : bothConstant? l' r' = bothConstant? l r := by
  unfold bothConstant?
  rw [hl.constant?, hr.constant?]

theorem bothNumeric_eq : bothNumeric l' r' = bothNumeric l r := by
  unfold bothNumeric
  rw [hl.ty, hr.ty]

theorem promote_follows :
    Follows σ strict (Prod.map Expr.hush Expr.hush) (promote l r) (promote l' r') := by
  unfold promote
  rw [hl.ty, hr.ty, hl.span, hr.span]
  split
  · exact .bind (toFloat_echoes hr) fun _ _ hr => .pure (Prod.ext hl hr)
  · exact .bind (toFloat_echoes hl) fun _ _ hl => .pure (Prod.ext hl hr)
  · exact .pure (Prod.ext hl hr)

theorem promoted_echoes :
    Echoes σ strict
      (do
        let (l, r) ← promote l r
        return .binary (Expr.settled span ty) op l r)
      (do
        let (l, r) ← promote l' r'
        return .binary (Expr.settled span ty) op l r) := by
  refine .bind (promote_follows hl hr) fun p p' hp => .pure ?_
  obtain ⟨hl, hr⟩ := Prod.ext_iff.1 hp
  exact Expr.Alike.binary hl _ _ hr

theorem arithmetic_echoes :
    Echoes σ strict (arithmetic span op l r) (arithmetic span op l' r') := by
  unfold arithmetic
  rw [bothNumeric_eq hl hr, hr.isZero, bothConstant?_eq hl hr]
  split
  · exact .reject
  refine .bind (commonType_follows hl hr) fun ty _ hty => ?_
  cases hty
  split
  · exact .reject
  split
  · exact .pure rfl
  · exact promoted_echoes hl hr

theorem power_echoes : Echoes σ strict (power span l r) (power span l' r') := by
  unfold power
  rw [hl.span, hr.span]
  refine .bind (toFloat_echoes hl) fun a a' ha => .bind (toFloat_echoes hr) fun b b' hb => ?_
  rw [bothConstant?_eq ha hb]
  split
  · exact .pure rfl
  · exact .pure (Expr.Alike.binary ha _ _ hb)

theorem ordering_echoes : Echoes σ strict (ordering span op l r) (ordering span op l' r') := by
  unfold ordering
  rw [bothNumeric_eq hl hr, bothConstant?_eq hl hr]
  split
  · exact .reject
  refine .bind (commonType_follows hl hr) fun ty _ hty => ?_
  cases hty
  split
  · exact .pure rfl
  · exact promoted_echoes hl hr

theorem equality_echoes : Echoes σ strict (equality span op l r) (equality span op l' r') := by
  unfold equality
  rw [hl.ty, hr.ty, bothConstant?_eq hl hr]
  refine .reading rfl rfl ?_
  split
  · exact .reject
  · dsimp only
    split
    · exact .pure rfl
    · exact promoted_echoes hl hr

theorem threeWay_echoes : Echoes σ strict (threeWay span l r) (threeWay span l' r') := by
  unfold threeWay
  rw [bothNumeric_eq hl hr]
  split
  · exact .reject
  refine .bind (promote_follows hl hr) fun p p' hp => ?_
  obtain ⟨hl, hr⟩ := Prod.ext_iff.1 hp
  dsimp only
  rw [bothConstant?_eq hl hr]
  split
  · exact .pure rfl
  · exact .pure (Expr.Alike.binary hl _ _ hr)

theorem bitsOf_echoes : Echoes σ strict (bitsOf span op l r) (bitsOf span op l' r') := by
  unfold bitsOf
  rw [hl.ty, hr.ty, bothConstant?_eq hl hr]
  split
  · exact .reject
  refine .bind (commonType_follows hl hr) fun ty _ hty => ?_
  cases hty
  split
  · exact .pure rfl
  · exact .pure (Expr.Alike.binary hl _ _ hr)

/-- The usual dialect has no operations on the bits of floats. -/
theorem bitwise_echoes : Echoes σ strict (bitwise span op l r) (bitwise span op l' r') := by
  refine .read ?_
  rw [hl.ty, hr.ty, hl.span, hr.span]
  by_cases hfloat : l.ty.isFloat || r.ty.isFloat
  · have hbits : bitsOf span op l r = reject span .integerExpected := by
      unfold bitsOf
      rcases Bool.or_eq_true_iff.1 hfloat with h | h <;> simp [isIntegral_of_isFloat h]
    simp only [Setting.firm, Bool.false_and, Bool.false_eq_true, if_false, hbits]
    exact .reject
  · simp only [hfloat, Bool.and_false, Bool.false_eq_true, if_false]
    exact bitsOf_echoes hl hr

theorem binaryOf_echoes : Echoes σ strict (binaryOf span op l r) (binaryOf span op l' r') := by
  unfold binaryOf
  cases op with
  | pow => exact power_echoes hl hr
  | add | sub | mul | div | mod => exact arithmetic_echoes hl hr
  | lt | gt | le | ge => exact ordering_echoes hl hr
  | eq | ne | approxEq => exact equality_echoes hl hr
  | threeWay => exact threeWay_echoes hl hr
  | shl | shr | ushr | bitAnd | bitOr | bitXor => exact bitwise_echoes hl hr

theorem foldLogical_alike {op : LogicalOp} :
    (foldLogical span op l r).Alike (foldLogical span op l' r') := by
  unfold foldLogical
  rw [hl.known?, hr.known?]
  split
  all_goals first
    | exact .rfl _
    | exact hl
    | exact hr
    | exact hl.logical _ _ hr

end Binary

theorem widen_echoes (h : x.Alike x') : Echoes σ strict (widen ty x) (widen ty x') := by
  unfold widen
  rw [h.span]
  split
  · exact toFloat_echoes h
  · exact .pure h

theorem conditionalOf_echoes (h : x.Alike x') (hl : l.Alike l') (hr : r.Alike r') :
    Echoes σ strict (conditionalOf span x l r) (conditionalOf span x' l' r') := by
  unfold conditionalOf
  rw [hl.ty, hr.ty, h.known?]
  refine .reading rfl rfl ?_
  split
  · exact .bind .describe fun _ _ _ => .bind .describe fun _ _ _ => .reject
  split
  · exact widen_echoes hl
  · exact widen_echoes hr
  · refine .bind (widen_echoes hl) fun _ _ hl => .bind (widen_echoes hr) fun _ _ hr => .pure ?_
    simp only [Expr.hush, hl, hr, show x.hush = x'.hush from h]

theorem negate_echoes (h : x.Alike x') : Echoes σ strict (negate span x) (negate span x') := by
  unfold negate
  rw [h.ty, h.constant?]
  split
  · exact .reject
  split
  · exact .pure rfl
  · exact .pure (h.unary _ _)

theorem complementOf_echoes (h : x.Alike x') :
    Echoes σ strict (complementOf span x) (complementOf span x') := by
  unfold complementOf
  rw [h.ty, h.constant?]
  split
  · exact .reject
  dsimp only
  split
  · exact .pure rfl
  · exact .pure (h.unary _ _)

theorem complement_echoes (h : x.Alike x') :
    Echoes σ strict (complement span x) (complement span x') := by
  refine .read ?_
  rw [h.ty, h.span]
  by_cases hfloat : x.ty.isFloat
  · have hcomplement : complementOf span x = reject span .integerExpected := by
      simp [complementOf, isIntegral_of_isFloat hfloat]
    simp only [Setting.firm, Bool.false_and, Bool.false_eq_true, if_false, hcomplement]
    exact .reject
  · simp only [hfloat, Bool.and_false, Bool.false_eq_true, if_false]
    exact complementOf_echoes h

theorem negateBool_echoes (h : x.Alike x') :
    Echoes σ strict (negateBool span x) (negateBool span x') := by
  unfold negateBool
  rw [h.span]
  refine .bind (toBool_echoes h) fun b b' (hb : b.Alike b') => ?_
  rw [hb.constant?]
  split
  · exact .pure rfl
  · exact .pure (hb.unary _ _)

theorem unaryOf_echoes {op : UnaryOp} (h : x.Alike x') :
    Echoes σ strict (unaryOf span op x) (unaryOf span op x') := by
  cases op with
  | plus =>
    unfold unaryOf
    rw [h.ty]
    dsimp only
    split
    · exact .pure h
    · exact .reject
  | minus => exact negate_echoes h
  | bitNot => exact complement_echoes h
  | boolNot => exact negateBool_echoes h

theorem absoluteOf_echoes (h : x.Alike x') :
    Echoes σ strict (absoluteOf span x) (absoluteOf span x') := by
  unfold absoluteOf
  rw [h.ty, h.constant?]
  split
  · exact .reject
  split
  · exact .pure rfl
  · exact .pure (h.abs _)

end Typing

end ActorScript
