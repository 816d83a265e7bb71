import ActorScript.Proofs.Typing.Scopes

/-! # What typing leaves of a scope

Whatever is typed, and whether it is accepted or rejected, open blocks, loops and assignments are
as many afterwards as before. An expression only adds diagnostics, and a statement also variables
of the innermost block and jumps of the innermost loop.
-/

namespace ActorScript

namespace Typing

variable {α β : Type}

/-- A step that leaves every scope as it was, but for diagnostics. -/
class Noting (x : Typing α) : Prop where
  ensures : ∀ σ s, Ensures σ s x fun _ => True

namespace Noting

theorem of {x : Typing α} {Q : Setting → Scope → α → Prop} (h : ∀ σ s, Ensures σ s x (Q σ s)) :
    Noting x :=
  ⟨fun σ s => (h σ s).mono fun _ _ => trivial⟩

/-- It is enough to know what a step does to a property that all trees have. -/
theorem bear {x : Typing α} {Q : Setting → Scope → α → Prop}
    (h : ∀ {σ s}, Hereditary σ s false Always → Ensures σ s x (Q σ s)) : Noting x :=
  of fun _ s => h (pliant_always s).toHereditary

instance pure (a : α) : Noting (Pure.pure a : Typing α) :=
  ⟨fun _ _ => .pure trivial⟩

instance reject (span : Span) (fault : Fault) : Noting (reject span fault : Typing α) :=
  ⟨fun _ _ => .reject⟩

instance read : Noting (MonadReader.read : Typing Setting) :=
  ⟨fun _ _ => .read (f := Pure.pure) (.pure trivial)⟩

instance record (d : Diagnostic) : Noting (modify (Scope.record d) : Typing PUnit) :=
  ⟨fun _ _ => .record⟩

theorem next {x : Typing α} {f : α → Typing β} [hx : Noting x] (h : ∀ a, Noting (f a)) :
    Noting (x >>= f) :=
  ⟨fun σ s => .bind (hx.ensures σ s) fun a _ => (h a).ensures σ s⟩

instance andThen (x : Typing α) (f : α → Typing β) [Noting x] [∀ a, Noting (f a)] :
    Noting (x >>= f) :=
  next inferInstance

instance either (p : Prop) [Decidable p] (x y : Typing α) [Noting x] [Noting y] :
    Noting (if p then x else y) := by
  split <;> infer_instance

instance mapM (f : α → Typing β) [∀ a, Noting (f a)] (as : List α) : Noting (as.mapM f) := by
  induction as with
  | nil =>
    rw [List.mapM_nil]
    infer_instance
  | cons a rest ih =>
    rw [List.mapM_cons]
    infer_instance

theorem notes {x : Typing α} (h : Noting x) (σ : Setting) (s : Scope) :
    s.Noted (x.runFrom σ s).2 := by
  obtain ⟨outcome, ds, hx, -⟩ := h.ensures σ s
  rw [hx s rfl]
  exact Scope.noted_recordAll

end Noting

/-! ## Rules -/

section Rules

variable (span : Span) (x y z : Expr) (name : String) (quiet : Bool) (index count : Nat)
  (f : Signature) (callee : Callee) (args : List Expr)

instance noting_warn (fault : Fault) : Noting (warn span fault) :=
  ⟨fun _ _ => .warn⟩

instance noting_describe (ty : Ty) : Noting (describe ty) :=
  ⟨fun _ _ => .describe⟩

instance noting_typeNamed : Noting (typeNamed span name) :=
  ⟨fun _ _ => .typeNamed⟩

instance noting_toBool : Noting (toBool span x) :=
  .bear fun h => toBool_bears h always

instance noting_toInt : Noting (toInt span x quiet) :=
  .bear fun h => toInt_bears h always quiet

instance noting_toIntArgument : Noting (toIntArgument span x) :=
  .bear fun h => toIntArgument_bears h always

instance noting_toFloat : Noting (toFloat span x) :=
  .bear fun h => toFloat_bears h always

instance noting_toClass (target : ClassId) : Noting (toClass span x target) :=
  .of fun _ s => toClass_bears (pliant_always s) always target

instance noting_convert (target : Ty) : Noting (convert span x target quiet) :=
  .of fun _ s => convert_bears (pliant_always s) always target quiet

instance noting_castTo (kind : CastKind) : Noting (castTo kind span x) := by
  unfold castTo
  cases kind with
  | bool | float => infer_instance
  | name => exact .bear fun h => toName_bears h always
  | string => exact .bear fun h => toText_bears h always
  | color => exact .of fun _ s => toColor_bears (pliant_always s) always
  | sound => exact .of fun _ s => toSound_bears (pliant_always s) always

instance noting_stateAt : Noting (stateAt span index) :=
  .bear fun h => stateAt_bears h (n := 0) index

instance noting_requireAction : Noting (requireAction span) :=
  ⟨fun _ _ => requireAction_ensures⟩

instance noting_runtimeStateAt (tail : Bool) : Noting (runtimeStateAt span x tail) := by
  unfold runtimeStateAt
  infer_instance

instance noting_labelled (text : String) : Noting (labelled span text) :=
  .bear fun h => labelled_bears h (n := 0) text

instance noting_binaryOf (op : BinOp) : Noting (binaryOf span op x y) :=
  .bear fun h => binaryOf_bears h always always op nofun

instance noting_unaryOf (op : UnaryOp) : Noting (unaryOf span op x) :=
  .bear fun h => unaryOf_bears h op always

instance noting_absoluteOf : Noting (absoluteOf span x) :=
  .bear fun h => absoluteOf_bears h always

instance noting_widen (ty : Ty) : Noting (widen ty x) := by
  unfold widen
  infer_instance

instance noting_conditionalOf : Noting (conditionalOf span x y z) := by
  unfold conditionalOf
  refine .next fun _ => ?_
  split
  · infer_instance
  split <;> infer_instance

instance noting_localAt (id : LocalId) : Noting (localAt span id) :=
  ⟨fun _ _ => .get (fun _ hs => by rw [Scope.typeOf_eq hs]) (.pure trivial)⟩

instance noting_selfAt : Noting (selfAt span) :=
  .bear fun h => selfAt_bears h (n := 0)

instance noting_identifierAt : Noting (identifierAt span name) :=
  .bear fun h => identifierAt_bears h (n := 0)

instance noting_memberOf : Noting (memberOf span x name) :=
  .bear fun h => memberOf_bears h always

instance noting_elementOf : Noting (elementOf span x y) :=
  .of fun _ s => elementOf_bears (pliant_always s) always always

instance noting_storageOf (op : StorageOp) : Noting (storageOf span op x) :=
  .bear fun h => storageOf_bears h (n := 0)

instance noting_stepOf (op : StepOp) (before : Bool) : Noting (stepOf span op before x) :=
  .of fun _ s => stepOf_bears (pliant_always s) op before always

instance noting_assignTo : Noting (assignTo span x y) :=
  ⟨fun _ s => assignTo_bears (pliant_always s) always fun _ _ _ _ _ => trivial⟩

instance noting_assignedAt : Noting (assignedAt span) :=
  .of fun _ _ => assignedAt_ensures

instance noting_checkInvoke (onObject : Bool) : Noting (checkInvoke span onObject f count) :=
  .of fun _ _ => checkInvoke_ensures

instance noting_memberTarget : Noting (memberTarget span x name) :=
  .of fun _ _ => memberTarget_bears always

instance noting_calleeOf (rng : Option String) : Noting (calleeOf span name rng count) :=
  .of fun _ _ => calleeOf_ensures

instance noting_invokeArgument : Noting (invokeArgument f index span x) :=
  .of fun _ s => invokeArgument_bears (pliant_always s) always

instance noting_specialArgument (number : Int32) : Noting (specialArgument number index x) :=
  .bear fun h => specialArgument_bears h always

instance noting_numberArgument (float : Bool) : Noting (numberArgument float span x) :=
  .bear fun h => numberArgument_bears h always

instance noting_extremumArgument : Noting (extremumArgument x) := by
  unfold extremumArgument
  infer_instance

instance noting_argumentFor : Noting (argumentFor callee index span x) :=
  .of fun _ s => argumentFor_bears (pliant_always s) always

instance noting_floatFnOf (fn : FloatFn) : Noting (floatFnOf span fn x) :=
  .bear fun h => floatFnOf_bears h always

instance noting_atan2Of : Noting (atan2Of span y x) :=
  .bear fun h => atan2Of_bears h always always

instance noting_extremumOf (op : Extremum) : Noting (extremumOf span op args) := by
  unfold extremumOf
  infer_instance

instance noting_resultOf : Noting (resultOf span callee args) := by
  unfold resultOf
  split <;> infer_instance

end Rules

/-! ## Expressions -/

instance noting_unlessTyped (e : Expr) (rule : Typing Expr) [Noting rule] :
    Noting (unlessTyped e rule) := by
  unfold unlessTyped
  infer_instance

theorem settleArgs_noting (prepare : Nat → Span → Expr → Typing Expr)
    [∀ index span x, Noting (prepare index span x)] (args : List Expr)
    (h : ∀ x ∈ args, Noting x.settle) (index : Nat) : Noting (settleArgs prepare index args) := by
  induction args generalizing index with
  | nil =>
    rw [settleArgs]
    infer_instance
  | cons x rest ih =>
    have hx := h x (by simp)
    have hrest := ih (fun y hy => h y (by simp [hy])) (index + 1)
    rw [settleArgs]
    infer_instance

theorem settleLastFirst_noting (args : List Expr) (h : ∀ x ∈ args, Noting x.settle) :
    Noting (settleLastFirst args) := by
  induction args with
  | nil =>
    rw [settleLastFirst]
    infer_instance
  | cons x rest ih =>
    have hx := h x (by simp)
    have hrest := ih fun y hy => h y (by simp [hy])
    rw [settleLastFirst]
    infer_instance

theorem settleOption_noting {x : Option Expr} (h : ∀ y ∈ x, Noting y.settle) :
    Noting (settleOption x) := by
  cases x with
  | none =>
    rw [settleOption]
    infer_instance
  | some x =>
    have hx := h x rfl
    rw [settleOption]
    infer_instance

end Typing

open Typing

/-- Typing an expression only adds diagnostics to the scope. -/
instance Expr.settle_noting (e : Expr) : Noting e.settle := by
  induction e using Expr.induct with
  | h e ih =>
    cases e <;> rw [Expr.settle]
    case constant | identifier | assigned | selfRef | localVar | field | stateIndex | stateLabel =>
      infer_instance
    case member _ x _ | explicitCast _ x _ | typeCast _ x _ _ | cast _ _ x | intCast _ x _
    | classCast _ x _ | unary _ _ x | storage _ _ x | step _ _ _ x | floatFn _ _ x
    | random2 _ _ x _ | abs _ x | runtimeState _ x _ =>
      have hx := ih x (.head _)
      infer_instance
    case binary _ _ a b | logical _ _ a b | element _ a b | random _ _ _ a b _ | atan2 _ a b =>
      have ha := ih a (.head _)
      have hb := ih b (.tail _ (.head _))
      infer_instance
    case assign m a b =>
      have ha := ih a (.head _)
      have hb (ty : Ty) : Noting (bracket (Scope.pushTarget ty) Scope.popTarget b.settle) :=
        ⟨fun σ _ => value_ensures ((ih b (by simp [children])).ensures σ _)⟩
      infer_instance
    case conditional m c a b =>
      have hc := ih c (.head _)
      have ha := ih a (.tail _ (.head _))
      have hb := ih b (by simp [children])
      infer_instance
    case call m name rng args =>
      have hlast := settleLastFirst_noting args ih
      have hargs (callee : Callee) := settleArgs_noting (argumentFor callee) args ih 0
      refine @Noting.either _ _ _ _ _ inferInstance (.next fun callee => ?_)
      split <;> infer_instance
    case memberCall m x name args =>
      have hx := ih x (.head _)
      have hargs (f : Signature) := settleArgs_noting (invokeArgument f) args
        (fun y hy => ih y (by simp [children, hy])) 0
      infer_instance
    case invoke m object f args tail =>
      have hobject := settleOption_noting (x := object) fun y hy =>
        ih y (by simp [children, Option.mem_toList.2 hy])
      have hargs := settleArgs_noting (invokeArgument f) args
        (fun y hy => ih y (by simp [children, hy])) 0
      infer_instance
    case special m number args tail =>
      have hargs := settleArgs_noting (fun index _ => specialArgument number index) args ih 0
      infer_instance
    case randomPick m float rng args =>
      have hargs := settleArgs_noting (fun _ => numberArgument float) args ih 0
      infer_instance
    case extremum m op args =>
      have hargs := settleArgs_noting (fun _ _ => extremumArgument) args ih 0
      infer_instance

instance Expr.settleBool_noting (e : Expr) : Noting e.settleBool := by
  unfold Expr.settleBool
  infer_instance

/-! ## Statements -/

namespace Typing

variable (span : Span) (body : Stmt) (cond value : Option Expr)

theorem Advances.ofNoted {σ : Setting} {s : Scope} {x : Typing α}
    (h : s.Noted (x.runFrom σ s).2) : Advances σ s x fun _ _ _ _ => True := by
  unfold Advances
  rcases hrun : x.runFrom σ s with ⟨r | a, s'⟩ <;> rw [hrun] at h
  · exact ⟨[], 0, .ofNoted h⟩
  · exact ⟨[], 0, .ofNoted h, trivial⟩

/-- A step that leaves an extension of every scope, also if it is rejected. -/
class Balanced (x : Typing α) : Prop where
  advances : ∀ σ s, Advances σ s x fun _ _ _ _ => True

namespace Balanced

variable (x : Typing α) (span : Span)

instance (priority := low) ofNoting [Noting x] : Balanced x :=
  ⟨fun σ s => .ofNoted (Noting.notes inferInstance σ s)⟩

theorem next {x : Typing α} {f : α → Typing β} [Balanced x] (h : ∀ a, Balanced (f a)) :
    Balanced (x >>= f) :=
  ⟨fun σ s => .bind (advances σ s) fun a s1 _ _ _ _ => (h a).advances σ s1⟩

instance andThen (f : α → Typing β) [Balanced x] [∀ a, Balanced (f a)] : Balanced (x >>= f) :=
  next inferInstance

instance either (p : Prop) [Decidable p] (y : Typing α) [Balanced x] [Balanced y] :
    Balanced (if p then x else y) := by
  split <;> infer_instance

instance inBlock [Balanced x] : Balanced (inBlock x) :=
  ⟨fun σ s => (advances σ s.pushBlock).inBlock.mono fun _ _ _ _ _ _ => trivial⟩

instance inLoop [Balanced x] : Balanced (inLoop x) :=
  ⟨fun σ s => (advances σ s.enterLoop).inLoop.mono fun _ _ _ _ _ _ => trivial⟩

instance declareLocal (name : String) (ty : Ty) : Balanced (declareLocal span name ty) :=
  ⟨fun _ _ => declareLocal_advances.mono fun _ _ _ _ _ _ => trivial⟩

instance noteReturn (types : List Ty) : Balanced (noteReturn span types) :=
  ⟨fun _ _ => noteReturn_advances.mono fun _ _ _ _ _ _ => trivial⟩

instance noteJump (keyword : String) : Balanced (noteJump span keyword) :=
  ⟨fun _ _ => noteJump_advances.mono fun _ _ _ _ _ _ => trivial⟩

/-- A rejected statement of a block is dropped, and what it did to the scope stays. -/
instance orDrop (x : Typing Stmt) [Balanced x] : Balanced (orDrop x) := by
  have hx : Balanced (some <$> x) := by
    rw [map_eq_pure_bind]
    infer_instance
  refine ⟨fun σ s => .tryCatch (hx.advances σ s) fun r s1 _ _ _ => ?_⟩
  exact (inferInstance : Balanced (do
    modify (Scope.record r.toDiagnostic)
    return none : Typing (Option Stmt))).advances σ s1

end Balanced

instance noting_warnIfEmpty : Noting (warnIfEmpty span body) := by
  unfold warnIfEmpty
  infer_instance

instance noting_whileOf (cond : Expr) : Noting (whileOf span cond body) := by
  unfold whileOf
  split <;> infer_instance

instance noting_doWhileOf (jumps : Nat) (cond : Expr) :
    Noting (doWhileOf span body jumps cond) := by
  unfold doWhileOf
  split <;> infer_instance

instance noting_settleCondition : Noting (settleCondition cond) := by
  cases cond <;> unfold settleCondition <;> infer_instance

instance balanced_forOf (step : Typing (Option Stmt)) (body : Typing Stmt) [Balanced step]
    [Balanced body] : Balanced (forOf span cond step body) := by
  unfold forOf
  refine .next fun cond => .next fun p => ?_
  dsimp only
  split <;> infer_instance

instance balanced_settleReturn : Balanced (settleReturn span value) := by
  unfold settleReturn
  cases value <;> infer_instance

instance balanced_settleDeclaration (name type : String) :
    Balanced (settleDeclaration span name type value) := by
  unfold settleDeclaration
  cases value <;> dsimp only <;> infer_instance

end Typing

theorem settleBranch_balanced {x : Option Stmt} (h : ∀ y ∈ x, Balanced y.settle) :
    Balanced (settleBranch x) := by
  cases x with
  | none =>
    rw [settleBranch]
    infer_instance
  | some y =>
    have hy := h y rfl
    rw [settleBranch]
    infer_instance

theorem settleSequence_balanced {body : List Stmt} (h : ∀ x ∈ body, Balanced x.settle) :
    Balanced (settleSequence body) := by
  induction body with
  | nil =>
    rw [settleSequence]
    infer_instance
  | cons x rest ih =>
    have hx := h x (by simp)
    have hrest := ih fun y hy => h y (by simp [hy])
    rw [settleSequence]
    infer_instance

theorem settleBlock_balanced {body : List Stmt} (h : ∀ x ∈ body, Balanced x.settle) :
    Balanced (settleBlock body) := by
  induction body with
  | nil =>
    rw [settleBlock]
    infer_instance
  | cons x rest ih =>
    have hx := h x (by simp)
    have hrest := ih fun y hy => h y (by simp [hy])
    rw [settleBlock]
    infer_instance

/-- Typing a statement extends the scope, also if the statement is rejected. -/
instance Stmt.settle_balanced (x : Stmt) : Balanced x.settle := by
  induction x using Stmt.induct with
  | h x ih =>
    cases x with
    | nop | expr | jump | ret | declare =>
      rw [Stmt.settle]
      infer_instance
    | sequence span body =>
      have hbody : Balanced (settleSequence body) := settleSequence_balanced ih
      rw [Stmt.settle]
      infer_instance
    | block span body locals =>
      have hbody : Balanced (settleBlock body) := settleBlock_balanced ih
      rw [Stmt.settle]
      infer_instance
    | branch span cond a b =>
      have ha : Balanced (settleBranch a) :=
        settleBranch_balanced fun y hy => ih y (by simp [children, Option.mem_toList.2 hy])
      have hb : Balanced (settleBranch b) :=
        settleBranch_balanced fun y hy => ih y (by simp [children, Option.mem_toList.2 hy])
      by_cases hnone : a = none ∧ b = none
      · obtain ⟨rfl, rfl⟩ := hnone
        rw [Stmt.settle]
        infer_instance
      · rw [Stmt.settle.eq_6 _ _ _ _ fun ha hb => hnone ⟨ha, hb⟩]
        infer_instance
    | whileLoop span cond body | doWhile span body cond =>
      have hbody := ih body (by simp [children])
      rw [Stmt.settle]
      infer_instance
    | forLoop span first cond step body =>
      have hstep : Balanced (settleBranch step) :=
        settleBranch_balanced fun y hy => ih y (by simp [children, Option.mem_toList.2 hy])
      have hbody := ih body (by simp [children])
      cases first with
      | none =>
        rw [Stmt.settle]
        infer_instance
      | some first =>
        have hfirst := ih first (by simp [children])
        rw [Stmt.settle]
        infer_instance

/-! ## Stacks -/

/-- A scope whose stacks are those of an earlier one, but for variables that were declared in the
innermost block since. -/
structure Scope.Balances (s s' : Scope) : Prop where
  blocks : s'.blocks.length = s.blocks.length
  loops : s'.loops.length = s.loops.length
  targets : s'.targets = s.targets
  outer : s'.blocks.tail = s.blocks.tail
  innermost : ∀ block ∈ s.blocks.head?, ∃ added, s'.blocks.head? = some (block ++ added) ∧
    ∀ v ∈ added, s.locals.size ≤ v ∧ v < s'.locals.size
  locals : ∀ v < s.locals.size, s'.locals[v]? = s.locals[v]?
  params : s'.params = s.params
  diagnostics : s.diagnostics <+: s'.diagnostics

theorem Scope.Extends.balances {s s' : Scope} {added : List LocalId} {jumps : Nat}
    (h : s.Extends s' added jumps) : s.Balances s' where
  __ := h
  blocks := by simp [h.blocks]
  loops := by simp [h.loops]
  outer := by simp [h.blocks]
  innermost block hblock := ⟨added, by simp_all [h.blocks], h.fresh⟩
  locals v hv := by
    obtain ⟨more, hmore⟩ := h.locals
    rw [← Array.getElem?_toList, ← hmore, List.getElem?_append_left (by simpa using hv),
      Array.getElem?_toList]

/-- Typing leaves the stacks of every scope as they were, whatever is typed and whether it is
accepted or rejected. An expression does not even declare anything. -/
theorem typing_leaves_stacks_balanced (σ : Setting) (s : Scope) :
    (∀ e : Expr, s.Balances (e.settle.runFrom σ s).2 ∧ (e.settle.runFrom σ s).2.core = s.core) ∧
      ∀ x : Stmt, s.Balances (x.settle.runFrom σ s).2 := by
  refine ⟨fun e => ?_, fun x => ?_⟩
  · have hnoted : s.Noted (e.settle.runFrom σ s).2 := e.settle_noting.notes σ s
    exact ⟨(Scope.Extends.ofNoted hnoted).balances, hnoted.core⟩
  · have h := Balanced.advances (x := x.settle) σ s
    unfold Advances at h
    rcases hrun : x.settle.runFrom σ s with ⟨r | a, s'⟩ <;> rw [hrun] at h
    · obtain ⟨added, jumps, h⟩ := h
      exact h.balances
    · obtain ⟨added, jumps, h, -⟩ := h
      exact h.balances

end ActorScript
