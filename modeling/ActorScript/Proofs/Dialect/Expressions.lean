import ActorScript.Proofs.Dialect.Operations
import Mathlib.Data.List.Forall2

/-! # Expressions in both dialects

Typing an expression in the lax dialect follows typing it in the usual one, by induction on the
expression as it was written.
-/

namespace ActorScript

open Typing

variable {name : String} {field : Field} {owner : ClassId} {op : Extremum} {f : Signature}
  {count index : Nat} {float : Bool} {callee : Callee}

namespace Typing

variable {σ : Setting} {strict : Bool} {span : Span} {x x' y y' : Expr}

/-! ## Names and members -/

theorem requireWritable_echoes (h : x.Alike x') :
    Echoes σ strict (requireWritable span x) (requireWritable span x') := by
  unfold requireWritable
  rcases h.addressOf?_cases with ⟨hx, hx'⟩ | ⟨writable, p, p', hx, hx', hp⟩ <;> rw [hx, hx']
  · exact .reject
  · cases writable with
    | true => exact .pure hp
    | false => exact .reject

theorem namedConstant_echoes {c : Constant} :
    Same σ strict Expr.hush (namedConstant span name c) := by
  unfold namedConstant
  split
  · exact .pure rfl
  · exact .reject

theorem localAt_echoes {id : LocalId} : Same σ strict Expr.hush (localAt span id) :=
  .get fun _ _ => .pure rfl

theorem selfAt_echoes : Same σ strict Expr.hush (selfAt span) := by
  refine .reading rfl rfl ?_
  split
  · exact .pure rfl
  · exact .reject

theorem checkField_follows : Same σ strict id (checkField span field owner) := by
  unfold checkField
  refine .whenever .warn ?_
  refine .reading rfl rfl ?_
  refine .guarded fun _ => ?_
  split
  · exact .reject
  · exact .pure rfl

theorem ownField_echoes : Same σ strict Expr.hush (ownField span name field owner) := by
  refine .reading rfl rfl ?_
  refine .guarded fun _ => .bind checkField_follows fun _ _ _ => ?_
  split
  · exact .reject
  · refine .guarded fun _ => .bind .log fun _ _ _ => .bind selfAt_echoes fun _ _ hself => .pure ?_
    simp only [fieldOf, Expr.hush, hself]

theorem identifierCandidates_follows : Same σ strict id identifierCandidates :=
  .reading rfl rfl (.get fun _ _ => .pure rfl)

theorem globalNamed_echoes : Same σ strict Expr.hush (globalNamed span name) := by
  refine .reading rfl rfl ?_
  dsimp only
  split
  · exact .bind .log fun _ _ _ => namedConstant_echoes
  split
  · exact .bind .log fun _ _ _ => .pure rfl
  · exact .bind identifierCandidates_follows fun _ _ _ => .throw

theorem identifierAt_echoes : Same σ strict Expr.hush (identifierAt span name) := by
  refine .reading rfl rfl (.get fun s ds => ?_)
  rw [Scope.find?_withDiagnostics]
  split
  · exact localAt_echoes
  split
  · exact .bind .log fun _ _ _ => namedConstant_echoes
  · exact ownField_echoes
  · exact .reject
  · exact globalNamed_echoes

theorem memberOf_echoes (h : x.Alike x') :
    Echoes σ strict (memberOf span x name) (memberOf span x' name) := by
  unfold memberOf
  rw [h.ty]
  refine .reading rfl rfl ?_
  dsimp only
  split
  · split
    · exact .bind .log fun _ _ _ => namedConstant_echoes
    · exact .bind checkField_follows fun _ _ _ => .pure (congrArg (Expr.field _ · _ _) h)
    · exact .reject
    · exact .throw
  · exact .reject

/-! ## Arrays and storage -/

theorem elementAt_echoes (h : x.Alike x') (hi : y.Alike y') :
    Echoes σ strict (elementAt span x y) (elementAt span x' y') := by
  unfold elementAt
  rw [h.ty, hi.ty, hi.constant?]
  refine .guarded fun _ => ?_
  split
  · refine .guarded fun _ => .guarded fun _ => ?_
    rcases h.addressOf?_cases with ⟨hx, hx'⟩ | ⟨writable, p, p', hx, hx', hp⟩ <;> rw [hx, hx']
    · exact .reject
    · exact .pure (hp.element _ hi)
  · exact .reject

theorem elementOf_echoes (h : x.Alike x') (hi : y.Alike y') :
    Echoes σ strict (elementOf span x y) (elementOf span x' y') := by
  unfold elementOf
  rw [hi.ty, hi.span]
  split
  · exact .bind (toIntArgument_echoes hi) fun _ _ hi => elementAt_echoes h hi
  · exact elementAt_echoes h hi

theorem storageOf_echoes {op : StorageOp} (h : x.Alike x') :
    Echoes σ strict (storageOf span op x) (storageOf span op x') := by
  have haddress : x'.addressOf?.isNone = x.addressOf?.isNone := by
    rcases h.addressOf?_cases with ⟨hx, hx'⟩ | ⟨_, _, _, hx, hx', -⟩ <;> simp [hx, hx']
  unfold storageOf
  rw [h.isConstant, haddress, h.ty]
  exact .guarded fun _ => .guarded fun _ => .pure rfl

/-! ## Writing -/

theorem stepOf_echoes {op : StepOp} {before : Bool} (h : x.Alike x') :
    Echoes σ strict (stepOf span op before x) (stepOf span op before x') := by
  unfold stepOf
  rw [h.ty]
  refine .guarded fun _ => .guarded fun _ => .bind (requireWritable_echoes h) fun _ _ hx => .pure ?_
  simp only [Expr.hush, hx]

theorem assignNumber_echoes {ty : Ty} (h : x.Alike x') :
    Echoes σ strict (assignNumber ty x) (assignNumber ty x') := by
  unfold assignNumber
  rw [h.ty, h.span]
  split
  · exact .pure h
  split
  · exact toBool_echoes h
  · exact .bind (toFloat_echoes h) fun _ _ hx => .pure (Expr.Alike.retype hx _)
  · exact .bind (toIntArgument_echoes h) fun _ _ hx => .pure (Expr.Alike.retype hx _)

theorem assignValue_echoes {ty : Ty} (h : x.Alike x') :
    Echoes σ strict (assignValue span ty x) (assignValue span ty x') := by
  unfold assignValue
  rw [h.ty]
  split
  · exact assignNumber_echoes h
  split
  · split
    · exact .reject
    · exact .reject
    · exact .pure h
  split
  · exact .pure (h.retype _)
  split
  · exact toClass_echoes h
  · exact toText_echoes h
  · exact toText_echoes h
  · exact toName_echoes h
  · exact .reject

theorem assignTo_echoes (h : x.Alike x') (hy : y.Alike y') :
    Echoes σ strict (assignTo span x y) (assignTo span x' y') := by
  unfold assignTo
  rw [h.ty]
  refine .bind (assignValue_echoes hy) fun _ _ hy => .bind (requireWritable_echoes h) fun _ _ hx => ?_
  exact .pure (by simp only [Expr.hush, hx, hy])

theorem assignedAt_echoes : Same σ strict Expr.hush (assignedAt span) := by
  refine .get fun s ds => ?_
  rw [Scope.targets_withDiagnostics]
  split
  · exact .pure rfl
  · exact .reject

/-! ## Calls -/

theorem checkInvoke_follows {onObject : Bool} :
    Same σ strict id (checkInvoke span onObject f count) := by
  refine .reading rfl rfl ?_
  dsimp only
  refine .guarded fun _ => .guarded fun _ => ?_
  split
  · exact .reject
  · exact .pure rfl

theorem checkCount_follows {least : Nat} {most : Option Nat} :
    Same σ strict id (checkCount span name least most count) := by
  unfold checkCount
  refine .guarded fun _ => ?_
  split
  · split
    · exact .reject
    · exact .pure rfl
  · exact .pure rfl

theorem calleeOf_follows {rng : Option String} :
    Same σ strict id (calleeOf span name rng count) := by
  refine .reading rfl rfl ?_
  dsimp only
  refine .guarded fun _ => ?_
  split
  · exact .guarded fun _ => .bind checkInvoke_follows fun _ _ _ => .pure rfl
  split
  · exact .bind checkCount_follows fun _ _ _ => .pure rfl
  split
  · exact .guarded fun _ => .guarded fun _ => .pure rfl
  split
  · exact .bind checkCount_follows fun _ _ _ => .pure rfl
  · exact .reject

theorem functionNamed_follows {cls : ClassId} : Same σ strict id (functionNamed span cls name) := by
  refine .reading rfl rfl ?_
  split
  · exact .pure rfl
  · exact .reject

theorem memberTarget_follows (h : x.Alike x') :
    Follows σ strict (Prod.map (Option.map Expr.hush) id) (memberTarget span x name)
      (memberTarget span x' name) := by
  unfold memberTarget
  rw [h.ty]
  refine .reading rfl rfl ?_
  split
  · refine .bind functionNamed_follows fun f f' hf => .pure (Prod.ext ?_ hf)
    cases hf
    dsimp only [Prod.map]
    split
    · rfl
    · exact congrArg some h
  · refine .bind functionNamed_follows fun f f' hf => ?_
    cases hf
    split
    · exact .pure rfl
    · exact .reject
  · exact .reject

theorem invokeArgument_echoes (h : x.Alike x') :
    Echoes σ strict (invokeArgument f index span x) (invokeArgument f index span x') :=
  convert_echoes h

theorem specialArgument_echoes {number : Int32} (h : x.Alike x') :
    Echoes σ strict (specialArgument number index x) (specialArgument number index x') := by
  unfold specialArgument
  rw [h.ty, h.span, h.isConstant]
  split
  · split
    · exact .pure h
    · exact .reject
  split
  · exact .pure h
  · exact toIntArgument_echoes h
  · exact .reject

theorem numberArgument_echoes (h : x.Alike x') :
    Echoes σ strict (numberArgument float span x) (numberArgument float span x') := by
  unfold numberArgument
  split
  · exact toFloat_echoes h
  · exact toIntArgument_echoes h

theorem extremumArgument_echoes (h : x.Alike x') :
    Echoes σ strict (extremumArgument x) (extremumArgument x') := by
  unfold extremumArgument
  rw [h.ty, h.span]
  split
  · exact .pure h
  · exact .reject

theorem argumentFor_echoes (h : x.Alike x') :
    Echoes σ strict (argumentFor callee index span x) (argumentFor callee index span x') := by
  cases callee with
  | function => exact invokeArgument_echoes h
  | special => exact specialArgument_echoes h
  | random | randomPick | random2 => exact numberArgument_echoes h
  | extremum | clamp => exact extremumArgument_echoes h
  | floatFn | abs | atan2 | vectorAngle => exact .pure h

theorem floatFnOf_echoes {fn : FloatFn} (h : x.Alike x') :
    Echoes σ strict (floatFnOf span fn x) (floatFnOf span fn x') := by
  unfold floatFnOf
  rw [h.ty, h.span, h.constant?]
  split
  · exact .reject
  split
  · exact .pure rfl
  · exact .bind (toFloat_echoes h) fun _ _ hx => .pure (by simp only [Expr.hush, hx])

theorem atan2Of_echoes (hy : y.Alike y') (h : x.Alike x') :
    Echoes σ strict (atan2Of span y x) (atan2Of span y' x') := by
  unfold atan2Of
  rw [hy.ty, h.ty, hy.span, h.span, bothConstant?_eq hy h]
  split
  · exact .reject
  split
  · exact .pure rfl
  · refine .bind (toFloat_echoes hy) fun _ _ hy => .bind (toFloat_echoes h) fun _ _ hx => .pure ?_
    simp only [Expr.hush, hy, hx]

/-! ## Extrema -/

section Lists

variable {args args' : List Expr}

abbrev AllAlike (args args' : List Expr) : Prop :=
  args.map Expr.hush = args'.map Expr.hush

theorem AllAlike.forall₂ (h : AllAlike args args') : List.Forall₂ Expr.Alike args args' := by
  induction args generalizing args' with
  | nil =>
    cases List.map_eq_nil_iff.1 h.symm
    exact .nil
  | cons x rest ih =>
    obtain ⟨x', rest', rfl, hx, hrest⟩ := List.map_eq_cons_iff.1 h.symm
    exact .cons hx.symm (ih hrest.symm)

theorem toFloats_follows (h : AllAlike args args') :
    Follows σ strict (List.map Expr.hush) (args.mapM fun x => toFloat x.span x)
      (args'.mapM fun x => toFloat x.span x) := by
  induction h.forall₂ with
  | nil => exact .pure rfl
  | cons hx hrest ih =>
    rw [List.mapM_cons, List.mapM_cons, hx.span]
    refine .bind (toFloat_echoes hx) fun _ _ hx => .bind (ih ?_) fun _ _ hrest => .pure ?_
    · exact (List.cons.inj h).2
    · exact congrArg₂ List.cons hx hrest

theorem filterMap_constant? (args : List Expr) :
    (args.map Expr.hush).filterMap Expr.constant? = args.filterMap Expr.constant? := by
  rw [List.filterMap_map]
  exact congrArg (List.filterMap · args) (funext Expr.constant?_hush)

theorem hush_collapseConstants (args : List Expr) :
    (collapseConstants span op float args).map Expr.hush =
      collapseConstants span op float (args.map Expr.hush) := by
  have hother : (fun e : Expr => !e.isConstant) ∘ Expr.hush = fun e => !e.isConstant :=
    funext fun e => congrArg not e.isConstant_hush
  unfold collapseConstants
  rw [filterMap_constant?]
  split
  · rfl
  · simp only [List.map_append, List.map_cons, List.map_nil, List.takeWhile_map, List.dropWhile_map,
      List.filter_map, hother]
    rfl

theorem extremumAmong_alike (h : AllAlike args args') :
    (extremumAmong span op float args).Alike (extremumAmong span op float args') := by
  have hkept : AllAlike (collapseConstants span op float args)
      (collapseConstants span op float args') := by
    rw [AllAlike, hush_collapseConstants, hush_collapseConstants, h]
  unfold extremumAmong
  generalize collapseConstants span op float args = kept at hkept ⊢
  generalize collapseConstants span op float args' = kept' at hkept ⊢
  have hnode (m : Mark) : (Expr.extremum m op kept).Alike (Expr.extremum m op kept') := by
    rw [Expr.Alike, Expr.hush, Expr.hush, Expr.hushAll_eq_map, Expr.hushAll_eq_map, hkept]
  rcases hkept.forall₂ with _ | ⟨hx, _ | ⟨_, _⟩⟩
  · exact hnode _
  · exact hx
  · exact hnode _

theorem extremumOf_echoes (h : AllAlike args args') :
    Echoes σ strict (extremumOf span op args) (extremumOf span op args') := by
  have hany : (args'.any fun e => e.ty.isFloat) = args.any fun e => e.ty.isFloat := by
    have hty (es : List Expr) :
        (es.any fun e => e.ty.isFloat) = (es.map Expr.hush).any fun e => e.ty.isFloat := by
      rw [List.any_map]
      exact congrArg (List.any es) (funext fun e => by simp)
    rw [hty args', hty args, h]
  unfold extremumOf
  rw [hany]
  split
  · exact .bind (toFloats_follows h) fun _ _ hargs => .pure (extremumAmong_alike hargs)
  · exact .pure (extremumAmong_alike h)

theorem resultOf_echoes (h : AllAlike args args') :
    Echoes σ strict (resultOf span callee args) (resultOf span callee args') := by
  cases callee with
  | function f => exact .pure (by simp only [invoked, Expr.hush, Expr.hushAll_eq_map, h])
  | special => exact .pure (by simp only [Expr.hush, Expr.hushAll_eq_map, h])
  | randomPick => exact .pure (by simp only [randomPickOf, Expr.hush, Expr.hushAll_eq_map, h])
  | extremum => exact extremumOf_echoes h
  | floatFn =>
    rcases h.forall₂ with _ | ⟨hx, _ | ⟨_, _⟩⟩
    · exact .reject
    · exact floatFnOf_echoes hx
    · exact .reject
  | abs =>
    rcases h.forall₂ with _ | ⟨hx, _ | ⟨_, _⟩⟩
    · exact .reject
    · exact absoluteOf_echoes hx
    · exact .reject
  | random2 =>
    rcases h.forall₂ with _ | ⟨hx, _ | ⟨_, _⟩⟩
    · exact .pure rfl
    · exact .pure (congrArg (Expr.random2 _ _ · _) hx)
    · exact .reject
  | random =>
    rcases h.forall₂ with _ | ⟨hx, _ | ⟨hy, _ | ⟨_, _⟩⟩⟩
    · exact .reject
    · exact .reject
    · exact .pure (congrArg₂ (Expr.random _ _ _ · · _) hx hy)
    · exact .reject
  | atan2 =>
    rcases h.forall₂ with _ | ⟨hx, _ | ⟨hy, _ | ⟨_, _⟩⟩⟩
    · exact .reject
    · exact .reject
    · exact atan2Of_echoes hx hy
    · exact .reject
  | vectorAngle =>
    rcases h.forall₂ with _ | ⟨hx, _ | ⟨hy, _ | ⟨_, _⟩⟩⟩
    · exact .reject
    · exact .reject
    · exact atan2Of_echoes hy hx
    · exact .reject
  | clamp =>
    rcases h.forall₂ with _ | ⟨hx, _ | ⟨hl, _ | ⟨hh, _ | ⟨_, _⟩⟩⟩⟩
    · exact .reject
    · exact .reject
    · exact .reject
    · refine .bind (extremumOf_echoes ?_) fun _ _ hraised => extremumOf_echoes ?_
      · exact congrArg₂ (fun a b => [a, b]) hx hl
      · exact congrArg₂ (fun a b => [a, b]) hraised hh
    · exact .reject

end Lists

end Typing

/-! ## Trees -/

section Trees

variable {σ : Setting} {strict : Bool}

theorem unlessTyped_echoes {e : Expr} {x y : Typing Expr} (h : Echoes σ strict x y) :
    Echoes σ strict (unlessTyped e x) (unlessTyped e y) := by
  unfold unlessTyped
  split
  · exact .pure rfl
  · exact h

theorem invoking_echoes {span : Span} {o o' : Option Expr} {tail : Bool} {x y : Typing (List Expr)}
    (ho : o.map Expr.hush = o'.map Expr.hush) (h : Follows σ strict (List.map Expr.hush) x y) :
    Echoes σ strict
      (do
        checkInvoke span o.isSome f count
        return invoked span o f (← x) tail)
      (do
        checkInvoke span o'.isSome f count
        return invoked span o' f (← y) tail) := by
  have hsome : o'.isSome = o.isSome := by
    rw [← Option.isSome_map (f := Expr.hush) (x := o'), ← ho, Option.isSome_map]
  rw [hsome]
  refine .bind checkInvoke_follows fun _ _ _ => .bind h fun _ _ hargs => .pure ?_
  simp only [invoked, Expr.hush, Expr.hushOption_eq_map, Expr.hushAll_eq_map, ho, hargs]

/-- Preparing an argument in the lax dialect follows preparing it in the usual one. -/
def Prepares (σ : Setting) (strict : Bool) (prepare : Nat → Span → Expr → Typing Expr) : Prop :=
  ∀ index span (x x' : Expr), x.Alike x' →
    Echoes σ strict (prepare index span x) (prepare index span x')

mutual

theorem Expr.settle_echoes (e : Expr) : Same σ strict Expr.hush e.settle := by
  cases e <;> rw [Expr.settle] <;> refine unlessTyped_echoes ?_
  case constant => exact .pure rfl
  case identifier => exact identifierAt_echoes
  case member _ object _ => exact .bind object.settle_echoes fun _ _ h => memberOf_echoes h
  case call _ _ _ args =>
    refine .bind calleeOf_follows fun callee _ hcallee => ?_
    cases hcallee
    split
    · exact .bind (settleLastFirst_follows args) fun _ _ h => resultOf_echoes h
    · exact .bind (settleArgs_follows args fun _ _ _ _ h => argumentFor_echoes h) fun _ _ h =>
        resultOf_echoes h
  case memberCall _ object _ args =>
    refine .bind object.settle_echoes fun _ _ h =>
      .bind (memberTarget_follows h) fun (o, f) (o', f') hp => ?_
    obtain ⟨ho, hf⟩ := Prod.ext_iff.1 hp
    cases hf
    exact invoking_echoes ho (settleArgs_follows args fun _ _ _ _ h => invokeArgument_echoes h)
  case explicitCast _ operand _ =>
    refine .bind .typeNamed fun _ _ hty => .bind operand.settle_echoes fun _ _ h => ?_
    cases hty
    exact convert_echoes h
  case typeCast _ operand _ _ => exact .bind operand.settle_echoes fun _ _ h => convert_echoes h
  case cast _ kind operand => exact .bind operand.settle_echoes fun _ _ h => castTo_echoes kind h
  case intCast _ operand _ => exact .bind operand.settle_echoes fun _ _ h => toInt_echoes h id
  case classCast _ operand _ => exact .bind operand.settle_echoes fun _ _ h => toClass_echoes h
  case unary _ _ operand => exact .bind operand.settle_echoes fun _ _ h => unaryOf_echoes h
  case storage _ _ operand => exact .bind operand.settle_echoes fun _ _ h => storageOf_echoes h
  case step _ _ _ operand => exact .bind operand.settle_echoes fun _ _ h => stepOf_echoes h
  case assign _ target value =>
    refine .bind target.settle_echoes fun t t' (ht : t.Alike t') => ?_
    rw [ht.ty]
    exact .bind (.bracket ⟨fun _ _ => rfl, fun _ => rfl⟩ ⟨fun _ _ => rfl, fun _ => rfl⟩
      value.settle_echoes) fun _ _ hv => assignTo_echoes ht hv
  case assigned => exact assignedAt_echoes
  case binary _ _ left right =>
    exact .bind left.settle_echoes fun _ _ hl =>
      .bind right.settle_echoes fun _ _ hr => binaryOf_echoes hl hr
  case logical _ _ left right =>
    exact .bind left.settle_echoes fun _ _ hl =>
      .bind (toBool_echoes hl) fun _ _ hl => .bind right.settle_echoes fun _ _ hr =>
      .bind (toBool_echoes hr) fun _ _ hr => .pure (foldLogical_alike hl hr)
  case conditional _ cond whenTrue whenFalse =>
    exact .bind cond.settle_echoes fun _ _ hc =>
      .bind (toBool_echoes hc) fun _ _ hc => .bind whenTrue.settle_echoes fun _ _ ht =>
      .bind whenFalse.settle_echoes fun _ _ hf => conditionalOf_echoes hc ht hf
  case selfRef => exact selfAt_echoes
  case localVar => exact localAt_echoes
  case field => exact .reject
  case element _ array index =>
    exact .bind array.settle_echoes fun _ _ ha =>
      .bind index.settle_echoes fun _ _ hi => elementOf_echoes ha hi
  case invoke _ object _ args _ =>
    exact .bind (settleOption_follows object) fun _ _ ho =>
      invoking_echoes ho (settleArgs_follows args fun _ _ _ _ h => invokeArgument_echoes h)
  case special _ _ args _ =>
    refine .bind (settleArgs_follows args fun _ _ _ _ h => specialArgument_echoes h) fun _ _ h =>
      .pure ?_
    simp only [Expr.hush, Expr.hushAll_eq_map, h]
  case floatFn _ _ arg => exact .bind arg.settle_echoes fun _ _ h => floatFnOf_echoes h
  case random _ _ _ low high _ =>
    refine .bind low.settle_echoes fun _ _ hl =>
      .bind (numberArgument_echoes hl) fun _ _ hl => .bind high.settle_echoes fun _ _ hh =>
      .bind (numberArgument_echoes hh) fun _ _ hh => .pure ?_
    simp only [randomOf, Expr.hush, hl, hh]
  case random2 _ _ mask _ =>
    refine .bind mask.settle_echoes fun _ _ hm =>
      .bind (numberArgument_echoes hm) fun _ _ hm => .pure ?_
    simp only [Expr.hush, hm]
  case randomPick _ _ _ choices =>
    refine .bind (settleArgs_follows choices fun _ _ _ _ h => numberArgument_echoes h) fun _ _ h =>
      .pure ?_
    simp only [randomPickOf, Expr.hush, Expr.hushAll_eq_map, h]
  case extremum _ _ args =>
    exact .bind (settleArgs_follows args fun _ _ _ _ h => extremumArgument_echoes h) fun _ _ h =>
      extremumOf_echoes h
  case abs _ operand => exact .bind operand.settle_echoes fun _ _ h => absoluteOf_echoes h
  case atan2 _ y x =>
    exact .bind y.settle_echoes fun _ _ hy => .bind x.settle_echoes fun _ _ hx =>
      atan2Of_echoes hy hx
  case stateIndex => exact stateAt_echoes
  case runtimeState _ index _ =>
    exact .bind requireAction_follows fun _ _ _ =>
      .bind index.settle_echoes fun _ _ h => runtimeStateAt_echoes h
  case stateLabel => exact labelled_echoes

theorem settleOption_follows : (o : Option Expr) →
    Same σ strict (Option.map Expr.hush) (settleOption o)
  | none => by
    rw [settleOption]
    exact .pure rfl
  | some e => by
    rw [settleOption]
    exact .bind e.settle_echoes fun _ _ h => .pure (congrArg some h)

theorem settleArgs_follows {prepare : Nat → Span → Expr → Typing Expr} {index : Nat} :
    (es : List Expr) → Prepares σ strict prepare →
    Same σ strict (List.map Expr.hush) (settleArgs prepare index es)
  | [], _ => by
    rw [settleArgs]
    exact .pure rfl
  | e :: rest, h => by
    rw [settleArgs]
    exact .bind e.settle_echoes fun _ _ he => .bind (h _ _ _ _ he) fun _ _ he =>
      .bind (settleArgs_follows rest h) fun _ _ hrest => .pure (congrArg₂ List.cons he hrest)

theorem settleLastFirst_follows : (es : List Expr) →
    Same σ strict (List.map Expr.hush) (settleLastFirst es)
  | [] => by
    rw [settleLastFirst]
    exact .pure rfl
  | e :: rest => by
    rw [settleLastFirst]
    exact .bind (settleLastFirst_follows rest) fun _ _ hrest =>
      .bind e.settle_echoes fun _ _ he => .pure (congrArg₂ List.cons he hrest)

end

theorem Expr.settleBool_echoes (e : Expr) : Same σ strict Expr.hush e.settleBool :=
  .bind e.settle_echoes fun _ _ h => toBool_echoes h

end Trees

end ActorScript
