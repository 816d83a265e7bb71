import ActorScript.Proofs.Lowering.Nesting

/-! # No step of the lowering takes a fault back
-/

namespace ActorScript

variable {conds : Option (Lowering Place)}

/-- What does the same under any left sides takes no fault back. -/
instance (priority := low) Safe.ofNests {α : Type} (x : Lowering α) [h : ∀ ps, Nests ps 0 x x] :
    Safe x :=
  ⟨fun t d => (h d.assigned).safe t d ⟨rfl, Nat.zero_le _⟩⟩

namespace Lowering

section Basic

variable (id : LocalId)

instance safe_emit (op : Op) (a b c : Operand) : Safe (emit op a b c) :=
  Safe.ofNests _

instance safe_emitSigned (op : Op) (a : Operand) (offset : Int) :
    Safe (emitSigned op a offset) := by
  unfold emitSigned
  infer_instance

instance safe_bindHome (bank? : Option Bank) (reg : Nat) : Safe (bindHome id bank? reg) := by
  unfold bindHome
  infer_instance

instance safe_releaseHome : Safe (releaseHome id) := by
  unfold releaseHome
  refine Safe.andThen inferInstance fun d => ?_
  split <;> infer_instance

instance safe_withAssigned {α : Type} (place : Place) (x : Lowering α) [Safe x] :
    Safe (withAssigned place x) := by
  unfold withAssigned
  infer_instance

end Basic

/-! ## Fields, elements and calls -/

section Calls

variable (operand index : Lowering Place) [Safe operand] [Safe index]

instance safe_computedElement (byAddress : Bool) (elem : Ty) (count : Nat) (start : Place) :
    Safe (computedElement byAddress elem count start index) := by
  unfold computedElement
  infer_instance

theorem safe_params {args : List (Lowering Place)} (h : ∀ x ∈ args, Safe x) :
    Safe (params args) := by
  refine Safe.forM fun x hx => ?_
  have := h x hx
  infer_instance

theorem safe_implicitParams (kind : FunctionKind) {object : Option (Lowering Place)}
    (hobject : ∀ x ∈ object, Safe x) : Safe (implicitParams kind object) := by
  have : Safe (object.getD selfPlace) := by
    cases object with
    | none => exact inferInstanceAs (Safe selfPlace)
    | some x => exact hobject x rfl
  unfold implicitParams
  cases kind <;> infer_instance

instance safe_specialParam (named : Bool) (known : Option Constant) :
    Safe (specialParam named known operand) := by
  unfold specialParam
  split
  · split <;> infer_instance
  · infer_instance

theorem safe_specialParams {args : List (Option Constant × Lowering Place)}
    (hargs : ∀ x ∈ args, Safe x.2) (named : Bool) : Safe (specialParams named args) := by
  induction args generalizing named with
  | nil => exact Safe.pure ()
  | cons first rest ih =>
    have := hargs first (by simp)
    have := ih (fun x hx => hargs x (by simp [hx])) false
    unfold specialParams
    infer_instance

theorem safe_choices {bank : Bank} {out : Place} {options : List (Nat × Lowering Place)}
    (h : ∀ x ∈ options, Safe x.2) : Safe (choices bank out options) := by
  induction options with
  | nil => exact Safe.pure _
  | cons first rest ih =>
    have := h first (by simp)
    have := ih fun x hx => h x (by simp [hx])
    unfold choices
    infer_instance

instance safe_improve (bank? : Option Bank) (op : Extremum) (best : Place) :
    Safe (improve bank? op best operand) := by
  unfold improve
  cases op <;> infer_instance

end Calls

end Lowering

/-! ## Trees -/

open Lowering

/-- It is enough to know that of the places handed down. -/
instance Expr.safe (e : Expr) : Safe e.lower :=
  ⟨fun t d => (e.lower_nests d.assigned 0).safe t d ⟨rfl, Nat.zero_le _⟩⟩

theorem mem_lowerAll {es : List Expr} {x : Lowering Place} :
    x ∈ lowerAll es ↔ ∃ e ∈ es, x = e.lower := by
  induction es with
  | nil => simp [lowerAll]
  | cons e rest ih => simp [lowerAll, ih]

theorem length_lowerAll (args : List Expr) : (lowerAll args).length = args.length := by
  induction args with
  | nil => rfl
  | cons e rest ih => simp [lowerAll, ih]

theorem safe_lowerAll (es : List Expr) : ∀ x ∈ lowerAll es, Safe x := by
  intro x hx
  obtain ⟨e, -, rfl⟩ := mem_lowerAll.1 hx
  exact e.safe

theorem safe_lowerOption (e? : Option Expr) : ∀ x ∈ lowerOption e?, Safe x := by
  cases e? with
  | none => simp [lowerOption]
  | some e => simp [lowerOption, e.safe]

/-- A condition known in advance is not lowered. -/
theorem eq_lower_of_unlessKnown {cond : Expr} {x : Lowering Place}
    (h : x ∈ if cond.isConstant then none else some cond.lower) : x = cond.lower := by
  split at h
  · cases h
  · exact (Option.some.inj h).symm

theorem safe_unlessKnown (cond : Expr) :
    ∀ x ∈ if cond.isConstant then none else some cond.lower, Safe x := by
  intro x hx
  rw [eq_lower_of_unlessKnown hx]
  exact cond.safe

section Arguments

variable (args : List Expr)

instance safe_paramsAll : Safe (params (lowerAll args)) :=
  safe_params (safe_lowerAll args)

instance safe_implicitParamsOf (kind : FunctionKind) (object : Option Expr) :
    Safe (implicitParams kind (lowerOption object)) :=
  safe_implicitParams kind (safe_lowerOption object)

instance safe_specialParamsAll (named : Bool) :
    Safe (specialParams named ((args.map Expr.constant?).zip (lowerAll args))) :=
  safe_specialParams (fun p hp => safe_lowerAll args p.2 (List.of_mem_zip hp).2) named

instance safe_choicesAll (bank : Bank) (out : Place) (table : List Nat) :
    Safe (choices bank out (table.zip (lowerAll args))) :=
  safe_choices fun p hp => safe_lowerAll args p.2 (List.of_mem_zip hp).2

instance safe_improveAll (bank? : Option Bank) (op : Extremum) (best : Place) :
    Safe ((lowerAll args).forM (improve bank? op best)) :=
  Safe.forM fun x hx => by
    have := safe_lowerAll args x hx
    infer_instance

end Arguments

/-! ## Statements -/

namespace Lowering

/-- A loop that tests first. Jumps on to its next round lead to the step, or to the start. -/
def rounds (toStep : Bool) (cond : Option (Lowering Place)) (step : Option (Lowering Unit))
    (body : Lowering Unit) : Lowering Unit := do
  let start ← Assembly.position
  let exit ← cond.mapM fun cond => loopTest cond 0
  let jumps ← loopBody body
  let next ← Assembly.position
  step.getD (pure ())
  Assembly.jumpTo start
  let finish ← Assembly.position
  exit.forM fun exit => Assembly.patchTo exit finish
  patchLoop jumps (if toStep then next else start) finish

theorem whileLoop_eq_rounds (cond : Option (Lowering Place)) (body : Lowering Unit) :
    whileLoop cond body = rounds false cond none body := rfl

theorem forLoop_eq_rounds (first step : Option (Lowering Unit)) (cond : Option (Lowering Place))
    (body : Lowering Unit) :
    forLoop first cond step body = (do first.getD (pure ()); rounds true cond step body) := rfl

section Statements

variable (value cond : Lowering Place) (body : Lowering Unit) [Safe value] [Safe cond] [Safe body]
  (check : Nat) (kind : JumpKind) (known : Option Constant)

instance safe_returnNothing : Safe returnNothing := by
  unfold returnNothing
  infer_instance

instance safe_returnValue (ty : Ty) : Safe (returnValue ty value) := by
  unfold returnValue
  infer_instance

instance safe_branchTest : Safe (branchTest cond check) := by
  unfold branchTest
  infer_instance

theorem safe_branch {check : Nat} {second : Option (Lowering Unit)}
    (h : ∀ x ∈ second, Safe x) : Safe (branch cond check body second) := by
  unfold branch
  cases second with
  | none =>
    dsimp only
    infer_instance
  | some other =>
    have := h other rfl
    dsimp only
    infer_instance

instance safe_loopTest : Safe (loopTest cond check) := by
  unfold loopTest
  infer_instance

instance safe_loopBody : Safe (loopBody body) := by
  unfold loopBody
  infer_instance

instance safe_patchLoop (jumps : LoopJumps) (next finish : Nat) :
    Safe (patchLoop jumps next finish) := by
  unfold patchLoop
  infer_instance

instance safe_recordJump (source : Nat) : Safe (recordJump kind source) := by
  unfold recordJump
  refine Safe.andThen inferInstance fun d => ?_
  split <;> infer_instance

instance safe_jump : Safe (jump kind) := by
  unfold jump
  infer_instance

instance safe_declare (ty : Ty) (id : LocalId) : Safe (declare ty known value id) := by
  unfold declare
  cases known with
  | none => infer_instance
  | some c =>
    dsimp only
    split <;> infer_instance

theorem safe_loopTests (h : ∀ x ∈ conds, Safe x) (check : Nat) :
    Safe (conds.mapM fun cond => loopTest cond check) := by
  cases conds with
  | none => exact Safe.pure _
  | some x =>
    have := h x rfl
    exact inferInstanceAs (Safe (some <$> loopTest x check))

instance safe_patchExit (exit : Option Nat) (finish : Nat) :
    Safe (exit.forM fun exit => liftM (Assembly.patchTo exit finish)) := by
  cases exit with
  | none => exact Safe.pure _
  | some x => exact inferInstanceAs (Safe (liftM (Assembly.patchTo x finish)))

theorem safe_getD {x? : Option (Lowering Unit)} (h : ∀ x ∈ x?, Safe x) :
    Safe (x?.getD (pure ())) := by
  cases x? with
  | none => exact Safe.pure _
  | some x => exact h x rfl

theorem safe_rounds {step : Option (Lowering Unit)} (hcond : ∀ x ∈ conds, Safe x)
    (hstep : ∀ x ∈ step, Safe x) (toStep : Bool) : Safe (rounds toStep conds step body) := by
  have := safe_loopTests hcond 0
  have := safe_getD hstep
  unfold rounds
  infer_instance

instance safe_doWhile : Safe (doWhile body known cond) := by
  unfold doWhile
  cases known <;> infer_instance

end Statements

end Lowering

section Loops

variable {t : Target} {d d' : Draft} {u : Unit} {exit : Option Nat} {jumps : LoopJumps}
  {next finish : Nat}

/-- The jumps out of a loop get their targets one by one. -/
theorem Yields.closeLoop {P : Draft → Prop}
    (h : Yields t (do
      exit.forM fun k => liftM (Assembly.patchTo k finish)
      patchLoop jumps next finish) d u d') (hd : P d)
    (hstep : ∀ d1, ∀ k ∈ exit.toList ++ (jumps.breaks ++ jumps.continues), ∀ n,
      n = next ∨ n = finish → fitsOffset (Assembly.jumpOffset k n) = true → P d1 →
      P (d1.retarget k n)) : P d' := by
  have hone {k n : Nat} (hk : k ∈ exit.toList ++ (jumps.breaks ++ jumps.continues))
      (hn : n = next ∨ n = finish) {d1 d2 : Draft} {v : PUnit}
      (hy : Yields t (liftM (Assembly.patchTo k n)) d1 v d2) (hd1 : P d1) : P d2 := by
    obtain ⟨hfits, rfl⟩ := yields_patchTo.1 hy
    exact hstep d1 k hk n hn hfits hd1
  obtain ⟨_, d1, hexit, h⟩ := yields_bind.1 h
  obtain ⟨_, d2, hbreaks, hcontinues⟩ := yields_bind.1 h
  have hd1 : P d1 := by
    cases exit with
    | none =>
      obtain ⟨-, rfl⟩ := yields_pure.1 hexit
      exact hd
    | some k => exact hone (by simp) (.inr rfl) hexit hd
  have hd2 := hbreaks.forM hd1 fun k hk => hone (by simp [hk]) (.inr rfl)
  exact hcontinues.forM hd2 fun k hk => hone (by simp [hk]) (.inl rfl)

theorem Yields.withoutExit (h : Yields t (patchLoop jumps next finish) d u d') : Yields t (do
      (none : Option Nat).forM fun k => liftM (Assembly.patchTo k finish)
      patchLoop jumps next finish) d u d' :=
  yields_bind.2 ⟨_, d, yields_pure.2 ⟨rfl, rfl⟩, h⟩

end Loops

mutual

theorem Stmt.safe_lower : (s : Stmt) → Safe s.lower
  | .nop _ | .expr _ _ | .jump _ _ | .ret _ none | .ret _ (some _)
  | .declare _ _ _ (some _) (some _) => by
    rw [Stmt.lower]
    infer_instance
  | .sequence _ body => by
    rw [Stmt.lower]
    exact safe_lowerBody body
  | .block _ body locals => by
    rw [Stmt.lower]
    exact Safe.andThen (safe_lowerBody body) fun _ => inferInstance
  | .branch _ cond whenTrue whenFalse => by
    have htrue := safe_lowerBranch whenTrue
    have hfalse := safe_lowerBranch whenFalse
    rw [Stmt.lower]
    split
    next first hfirst =>
      have := htrue first hfirst
      exact safe_branch _ _ hfalse
    next first _ hfirst =>
      have := hfalse first hfirst
      exact safe_branch _ _ (by simp)
    next => infer_instance
  | .whileLoop _ cond body => by
    have := body.safe_lower
    rw [Stmt.lower, whileLoop_eq_rounds]
    exact safe_rounds _ (safe_unlessKnown cond) (by simp) false
  | .doWhile _ body cond => by
    have := body.safe_lower
    rw [Stmt.lower]
    infer_instance
  | .forLoop _ first cond step body => by
    have := body.safe_lower
    rw [Stmt.lower]
    exact Safe.andThen (safe_getD (safe_lowerBranch first)) fun _ =>
      safe_rounds _ (safe_lowerOption cond) (safe_lowerBranch step) true
  | .declare _ _ _ none _ | .declare _ _ _ (some _) none => by
    rw [Stmt.lower]
    · infer_instance
    · simp

theorem safe_lowerBody : (body : List Stmt) → Safe (lowerBody body)
  | [] => by
    rw [lowerBody]
    infer_instance
  | s :: rest => by
    rw [lowerBody]
    exact Safe.andThen s.safe_lower fun _ => safe_lowerBody rest

theorem safe_lowerBranch : (s? : Option Stmt) → ∀ x ∈ lowerBranch s?, Safe x
  | none => by simp [lowerBranch]
  | some s => by
    simp only [lowerBranch, Option.mem_def, Option.some.injEq, forall_eq']
    exact s.safe_lower

end

instance Stmt.safe (s : Stmt) : Safe s.lower :=
  s.safe_lower

instance Stmt.safe_body (body : List Stmt) : Safe (lowerBody body) :=
  safe_lowerBody body

end ActorScript
