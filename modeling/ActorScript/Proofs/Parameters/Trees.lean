import ActorScript.Proofs.Parameters.Calls

/-! # The code of trees

Every expression and every statement is lowered to code with a layout that follows the tree, so
long as the parameters of its calls can be counted in sixteen bits.
-/

namespace ActorScript

open Lowering

variable {es : List Expr} {check n : Nat} {jumps : LoopJumps}
  {conds : Option (Lowering Place)} {exit : Option Nat}

/-! ## Numbers of parameters -/

mutual

/-- How many parameters are passed for the calls in an expression that may have any number of
them. -/
@[simp]
def Expr.counts : Expr → List Nat
  | .stateLabel _ _ names _ => [names.length + 1]
  | .member _ e _ | .explicitCast _ e _ | .typeCast _ e _ _ | .cast _ _ e | .intCast _ e _
  | .classCast _ e _ | .unary _ _ e | .storage _ _ e | .step _ _ _ e | .field _ e _ _
  | .floatFn _ _ e | .random2 _ _ e _ | .abs _ e | .runtimeState _ e _ => e.counts
  | .assign _ a b | .binary _ _ a b | .logical _ _ a b | .element _ a b | .random _ _ _ a b _
  | .atan2 _ a b => a.counts ++ b.counts
  | .conditional _ c a b => c.counts ++ (a.counts ++ b.counts)
  | .memberCall _ object _ args => object.counts ++ countsAll args
  | .invoke _ object f args _ =>
      (f.kind.implicitArgs + args.length) :: (countsOf object ++ countsAll args)
  | .special _ _ args _ => (args.length + 2) :: countsAll args
  | .call _ _ _ args | .randomPick _ _ _ args | .extremum _ _ args => countsAll args
  | _ => []

@[simp]
def countsAll : List Expr → List Nat
  | [] => []
  | e :: rest => e.counts ++ countsAll rest

@[simp]
def countsOf : Option Expr → List Nat
  | none => []
  | some e => e.counts

end

theorem mem_countsAll : n ∈ countsAll es ↔ ∃ e ∈ es, n ∈ e.counts := by
  induction es with
  | nil => simp
  | cons e rest ih => simp [ih]

theorem countsOf_eq (e? : Option Expr) : countsOf e? = countsAll e?.toList := by
  cases e? <;> simp

theorem Expr.mem_counts {e x : Expr} (hx : x ∈ e.children) (h : n ∈ x.counts) :
    n ∈ e.counts := by
  have hall : ∀ {es : List Expr}, x ∈ es → n ∈ countsAll es := fun hx =>
    mem_countsAll.2 ⟨x, hx, h⟩
  cases e with
  | invoke m object f args tail =>
    rw [counts, countsOf_eq]
    refine List.mem_cons_of_mem _ ?_
    rcases List.mem_append.1 hx with hx | hx
    · exact List.mem_append_left _ (hall hx)
    · exact List.mem_append_right _ (hall hx)
  | special m number args tail => exact List.mem_cons_of_mem _ (hall hx)
  | memberCall m object f args =>
    rw [counts]
    exact @hall (object :: args) hx
  | call m a b args | randomPick m a b args | extremum m a args =>
    rw [counts]
    exact hall hx
  | constant | identifier | assigned | selfRef | localVar | stateIndex | stateLabel => cases hx
  | _ => simpa [children] using hall hx

mutual

/-- How many parameters are passed for such calls in a statement. -/
@[simp]
def Stmt.counts : Stmt → List Nat
  | .expr _ e => e.counts
  | .sequence _ body | .block _ body _ => countsIn body
  | .branch _ cond whenTrue whenFalse =>
      cond.counts ++ (countsInside whenTrue ++ countsInside whenFalse)
  | .whileLoop _ cond body | .doWhile _ body cond => cond.counts ++ body.counts
  | .forLoop _ first cond step body =>
      countsOf cond ++ (countsInside first ++ (countsInside step ++ body.counts))
  | .ret _ value | .declare _ _ _ value _ => countsOf value
  | _ => []

@[simp]
def countsIn : List Stmt → List Nat
  | [] => []
  | s :: rest => s.counts ++ countsIn rest

@[simp]
def countsInside : Option Stmt → List Nat
  | none => []
  | some s => s.counts

end

theorem mem_countsIn {ss : List Stmt} : n ∈ countsIn ss ↔ ∃ s ∈ ss, n ∈ s.counts := by
  induction ss with
  | nil => simp
  | cons s rest ih => simp [ih]

theorem countsInside_eq (s? : Option Stmt) : countsInside s? = countsIn s?.toList := by
  cases s? <;> simp

/-- The numbers of a statement are those of its statements and of its expressions. -/
theorem Stmt.mem_counts {s : Stmt} :
    n ∈ s.counts ↔ n ∈ countsAll s.exprs ∨ n ∈ countsIn s.children := by
  cases s <;>
    simp [countsOf_eq, countsInside_eq, exprs, children, mem_countsAll, mem_countsIn] <;> grind

/-- The parameters of every call can be counted in sixteen bits. -/
def Counted (counts : List Nat) : Prop :=
  ∀ n ∈ counts, n < 65536

instance (counts : List Nat) : Decidable (Counted counts) :=
  List.decidableBAll _ counts

section Expressions

variable {t : Target}

theorem Lays.laysOut {x : Lowering Place} {e : Expr} (h : Lays t x e.children)
    (hnone : e.parameters? = none) : LaysOut t x e := by
  intro d p d' hy
  obtain ⟨code, hpieces, happends⟩ := h d p d' hy
  exact ⟨code, .node hnone hpieces, happends⟩

theorem home_lays (id : LocalId) : Lays t (home id) es := by
  refine .getDraft fun d => ?_
  split
  · exact .ofQuiet
  · exact .unresolved

theorem Expr.laysOut (e : Expr) (h : Counted e.counts) : LaysOut t e.lower e := by
  induction e using Expr.induct with
  | h e ih =>
    have hout (x : Expr) (hx : x ∈ e.children) : LaysOut t x.lower x :=
      ih x hx fun n hn => h n (mem_counts hx hn)
    have hlays (x : Expr) (hx : x ∈ e.children) : Lays t x.lower e.children := (hout x hx).lays hx
    cases e <;> rw [Expr.lower]
    case constant m c => exact Lays.laysOut .ofQuiet rfl
    case cast m kind x => exact (cast_lays (hlays x (.head _)) _ _).laysOut rfl
    case intCast m x quiet => exact (convert_lays (hlays x (.head _)) _ _).laysOut rfl
    case classCast m x target => exact classCast_laysOut (hout x (.head _))
    case unary m op x => exact (unary_lays (hlays x (.head _)) _).laysOut rfl
    case step m op before x => exact (step_lays (hlays x (.head _)) _ _ _ _).laysOut rfl
    case assign m a b =>
      exact (assignment_lays (hlays a (.head _)) (hlays b (by simp [children])) _ _).laysOut rfl
    case assigned m => exact (assignedValue_lays _).laysOut rfl
    case binary m op a b =>
      exact (binary_lays (hlays a (.head _)) (hlays b (by simp [children])) _ _ _ _ _).laysOut rfl
    case logical m op a b =>
      exact (logical_lays (hlays a (.head _)) (hlays b (by simp [children])) _).laysOut rfl
    case conditional m c a b =>
      exact (conditional_lays (hlays c (.head _)) (hlays a (by simp [children]))
        (hlays b (by simp [children])) _).laysOut rfl
    case selfRef m => exact fun d p d' hy => ⟨.empty, .node rfl .empty, appends_selfPlace hy⟩
    case localVar m id => exact Lays.laysOut ((home_lays id).bind fun _ => .ofQuiet) rfl
    case field m x offset readonly => exact (field_lays (hlays x (.head _)) _ _ _).laysOut rfl
    case element m a b =>
      exact (element_lays (hlays a (.head _)) (hlays b (by simp [children])) _ _ _).laysOut rfl
    case invoke m object f args tail =>
      exact invoke_laysOut (fun x hx => hout x (by simp [children, Option.mem_def.1 hx]))
        (fun x hx => hout x (by simp [children, hx])) (h _ (by simp))
    case special m number args tail => exact special_laysOut hout (h _ (by simp))
    case floatFn m fn x => exact (floatFn_lays (hlays x (.head _)) _).laysOut rfl
    case random m float rng a b tail =>
      exact random_laysOut (hout a (.head _)) (hout b (by simp [children]))
    case random2 m rng x tail => exact random2_laysOut (hout x (.head _))
    case randomPick m float rng options => exact randomPick_laysOut hout
    case extremum m op args =>
      refine (extremum_lays (safe_lowerAll args) (fun x hx => ?_) _ _).laysOut rfl
      obtain ⟨y, hy, rfl⟩ := mem_lowerAll.1 hx
      exact hlays y hy
    case abs m x => exact (abs_lays (hlays x (.head _))).laysOut rfl
    case atan2 m a b =>
      exact (atan2_lays (hlays a (.head _)) (hlays b (by simp [children]))).laysOut rfl
    case runtimeState m x tail => exact runtimeState_laysOut (hout x (.head _))
    case stateLabel m text names tail => exact stateLabel_laysOut (h _ (by simp))
    all_goals exact Lays.laysOut .unresolved rfl

end Expressions

/-! ## Statements -/

/-- No parameter waits, and no jump of the code or of the loops around leads away from that. -/
structure Draft.AtRest (d : Draft) : Prop where
  waiting : d.waiting = []
  level : Level d.code
  jumps : ∀ j ∈ d.loops, ∀ k ∈ j.breaks ++ j.continues, d.Waits k

/-- Code with a layout is added, behind which no parameter waits again. -/
structure Draft.Covers (d : Draft) (code : Layout) (d' : Draft) : Prop where
  atRest : d'.AtRest
  roles_eq : d'.roles = d.roles ++ code.roles

/-- Lowering adds code made of that of statements and expressions, if no parameter waits. -/
def Stmt.Lays {α : Type} (t : Target) (x : Lowering α) (ss : List Stmt) (es : List Expr) : Prop :=
  ∀ d a d', d.AtRest → Yields t x d a d' → ∃ code, Pieces ss es code ∧ d.Covers code d'

namespace Draft

variable {d d1 d2 : Draft} {a b : Layout}

theorem AtRest.covers (h : d.AtRest) (hw : d.Appends a.roles d1) : d.Covers a d1 where
  atRest := {
    waiting := (waiting_append hw.roles_eq).trans h.waiting
    level := hw.level h.level
    jumps := fun j hj k hk => (h.jumps j (hw.loops ▸ hj) k hk).mono hw }
  roles_eq := hw.roles_eq

theorem Covers.trans (h : d.Covers a d1) (h' : d1.Covers b d2) : d.Covers (.seq a b) d2 where
  atRest := h'.atRest
  roles_eq := by rw [h'.roles_eq, h.roles_eq, List.append_assoc, Layout.roles]

theorem Covers.appends (h : d.Covers a d1) (hw : d1.Appends b.roles d2) : d.Covers (.seq a b) d2 :=
  h.trans (h.atRest.covers hw)

theorem Covers.still (h : d.Covers a d1) (hw : d1.Appends [] d2) : d.Covers a d2 where
  atRest := (AtRest.covers (a := .empty) h.atRest hw).atRest
  roles_eq := by rw [hw.roles_eq, List.append_nil, h.roles_eq]

end Draft

namespace Stmt.Lays

variable {α β : Type} {t : Target} {x : Lowering α} {f : α → Lowering β} {ss : List Stmt}
  {es : List Expr}

theorem ofLays (h : ActorScript.Lays t x es) : Stmt.Lays t x ss es := by
  intro d a d' hd hy
  obtain ⟨code, hpieces, happends⟩ := h d a d' hy
  exact ⟨code, hpieces.mono (by simp) (fun _ => id), hd.covers happends⟩

theorem ofQuiet [Quiet x] : Stmt.Lays t x ss es :=
  ofLays .ofQuiet

theorem bind [Safe x] [∀ a, Safe (f a)] (hx : Stmt.Lays t x ss es)
    (hf : ∀ a, Stmt.Lays t (f a) ss es) : Stmt.Lays t (x >>= f) ss es := by
  intro d b d' hd hy
  obtain ⟨a, d1, hxy, hfy⟩ := yields_bind.1 hy
  obtain ⟨first, hfirst, hcovers⟩ := hx d a d1 hd hxy
  obtain ⟨second, hsecond, hcovers'⟩ := hf a d1 b d' hcovers.atRest hfy
  exact ⟨.seq first second, .seq hfirst hsecond, hcovers.trans hcovers'⟩

theorem part {s : Stmt} {x : Lowering Unit} (h : Stmt.Lays t x s.children s.exprs) (hs : s ∈ ss) :
    Stmt.Lays t x ss es := by
  intro d u d' hd hy
  obtain ⟨code, hpieces, hcovers⟩ := h d u d' hd hy
  exact ⟨.stmt code, .stmt hs hpieces, hcovers.atRest, hcovers.roles_eq⟩

end Stmt.Lays

section Statements

variable {t : Target} {ss : List Stmt} {es : List Expr} {cond : Lowering Place}
  {body : Lowering Unit} [Safe cond] [Safe body] {d d' : Draft} {k : Nat} {u : Unit}

theorem appends_jumpTo {q : Nat} (hq : d.Rests q)
    (h : Yields t (liftM (Assembly.jumpTo q)) d u d') : d.Appends Layout.jump.roles d' := by
  obtain ⟨-, rfl⟩ := yields_jumpTo.1 h
  exact {
    roles_eq := by simp [Draft.roles]
    level := fun hlevel => by
      rw [Draft.code_push]
      refine hlevel.jump (q := q) ?_ hq.le (hq.waiting_eq.trans d.rests_end.waiting_eq.symm)
      unfold Assembly.jumpOffset
      omega
    loops := rfl }

theorem branchTest_appends (hcond : Lays t cond es) (h : Yields t (branchTest cond check) d k d') :
    ∃ code, Pieces [] es code ∧ d.Appends code.roles d' ∧ d'.Waits k := by
  simp only [branchTest, yields_bind] at h
  obtain ⟨p, d1, hp, c, d2, hc, zero, d3, hzero, _, d4, htest, skip, d5, hjump, _, d6, hfree,
    hout⟩ := h
  obtain ⟨rfl, rfl⟩ := yields_pure.1 hout
  obtain ⟨value, hvalue, hw1⟩ := hcond d p d1 hp
  obtain ⟨load, hload, hw2⟩ := (Lays.ofQuiet : Lays t _ es) d1 c d2 hc
  obtain ⟨-, rfl⟩ := yields_pooledInt.1 hzero
  have hstore : d2.Appends [] (d2.store (.int 0)) := .of_code rfl rfl
  obtain ⟨hw5, hwaits⟩ := appends_test htest (.refl d4) hjump
  have hfreed := appends_free hfree
  exact ⟨.seq value (.seq load .test), .seq hvalue (.seq hload .test),
    hw1.trans ((hw2.still hstore).trans (hw5.still hfreed)), hwaits.still hfreed⟩

theorem loopTest_appends (hcond : Lays t cond es) (h : Yields t (loopTest cond check) d k d') :
    ∃ code, Pieces [] es code ∧ d.Appends code.roles d' ∧ d'.Waits k := by
  simp only [loopTest, yields_bind] at h
  obtain ⟨p, d1, hp, c, d2, hc, _, d3, htest, _, d4, hfree, hjump⟩ := h
  obtain ⟨value, hvalue, hw1⟩ := hcond d p d1 hp
  obtain ⟨load, hload, hw2⟩ := (Lays.ofQuiet : Lays t _ es) d1 c d2 hc
  obtain ⟨hw5, hwaits⟩ := appends_test htest (appends_free hfree) hjump
  exact ⟨.seq value (.seq load .test), .seq hvalue (.seq hload .test),
    hw1.trans (hw2.trans hw5), hwaits⟩

/-- A branch jumps over the part that is not taken. -/
theorem branch_lays (hcond : Lays t cond es) (check : Nat) (hbody : Stmt.Lays t body ss es)
    {second : Option (Lowering Unit)} (hsafe : ∀ x ∈ second, Safe x)
    (hsecond : ∀ x ∈ second, Stmt.Lays t x ss es) :
    Stmt.Lays t (branch cond check body second) ss es := by
  intro d u d' hd hy
  cases second with
  | none =>
    simp only [branch, yields_bind] at hy
    obtain ⟨skip, d1, htest, _, d2, hrun, hpatch⟩ := hy
    obtain ⟨tested, hpieces, hw1, hskip⟩ := branchTest_appends hcond htest
    have hc1 := hd.covers hw1
    obtain ⟨first, hfirst, hc2⟩ := hbody d1 _ d2 hc1.atRest hrun
    have hpatched := appends_patch (hskip.later hc2.roles_eq) hpatch
    exact ⟨.seq tested first, .seq (hpieces.mono (by simp) fun _ => id) hfirst,
      (hc1.trans hc2).still hpatched⟩
  | some other =>
    have hother := hsafe other rfl
    simp only [branch, yields_bind] at hy
    obtain ⟨skip, d1, htest, _, d2, hrun, leave, d3, hjump, _, d4, hpatch, _, d5, hrun',
      hpatch'⟩ := hy
    obtain ⟨tested, hpieces, hw1, hskip⟩ := branchTest_appends hcond htest
    have hc1 := hd.covers hw1
    obtain ⟨first, hfirst, hc2⟩ := hbody d1 _ d2 hc1.atRest hrun
    obtain ⟨hw3, hleave⟩ := appends_forward hjump
    have hw4 := appends_patch ((hskip.later hc2.roles_eq).mono hw3) hpatch
    have hc4 := ((hc1.trans hc2).appends hw3).still hw4
    obtain ⟨last, hlast, hc5⟩ := hsecond other rfl d4 _ d5 hc4.atRest hrun'
    have hpatched := appends_patch ((hleave.still hw4).later hc5.roles_eq) hpatch'
    exact ⟨.seq (.seq (.seq tested first) .jump) last,
      .seq (.seq (.seq (hpieces.mono (by simp) fun _ => id) hfirst) .jump) hlast,
      (hc4.trans hc5).still hpatched⟩

/-! ### Loops -/

/-- The jumps out of a body wait for their targets. -/
theorem loopBody_covers (hbody : Stmt.Lays t body ss es) (hd : d.AtRest)
    (h : Yields t (loopBody body) d jumps d') :
    ∃ code, Pieces ss es code ∧ d.Covers code d' ∧
      ∀ k ∈ jumps.breaks ++ jumps.continues, d'.Waits k := by
  simp only [loopBody, yields_bind, yields_modifyLoops, yields_getDraft, yields_pure] at h
  obtain ⟨_, _, rfl, _, _, hrun, _, d1, ⟨rfl, rfl⟩, _, _, rfl, rfl, rfl⟩ := h
  have hinside : { d with loops := {} :: d.loops }.AtRest := { hd with
    jumps := fun j hj k hk => by
      rcases List.mem_cons.1 hj with rfl | hj
      · simp at hk
      · exact (hd.jumps j hj k hk).of_roles rfl }
  obtain ⟨code, hpieces, hcovers⟩ := hbody _ _ d1 hinside hrun
  have hrest := hcovers.atRest
  refine ⟨code, hpieces, ⟨⟨hrest.waiting, hrest.level, fun j hj k hk => ?_⟩, hcovers.roles_eq⟩, ?_⟩
  · exact (hrest.jumps j (List.mem_of_mem_tail hj) k hk).of_roles rfl
  · intro k hk
    cases hloops : d1.loops with
    | nil => simp [hloops] at hk
    | cons j outer =>
      rw [hloops] at hk
      exact (hrest.jumps j (by simp [hloops]) k hk).of_roles rfl

theorem exit_appends (hsafe : ∀ x ∈ conds, Safe x) (hconds : ∀ x ∈ conds, Lays t x es)
    (h : Yields t (conds.mapM fun cond => loopTest cond check) d exit d') :
    ∃ code, Pieces [] es code ∧ d.Appends code.roles d' ∧ ∀ k ∈ exit, d'.Waits k := by
  cases conds with
  | none =>
    obtain ⟨rfl, rfl⟩ := yields_pure.1 h
    exact ⟨.empty, .empty, .refl _, by simp⟩
  | some cond =>
    have hcond := hsafe cond rfl
    obtain ⟨k, htest, rfl⟩ := yields_map.1 h
    obtain ⟨code, hpieces, happends, hwaits⟩ := loopTest_appends (hconds cond rfl) htest
    exact ⟨code, hpieces, happends, by simpa using hwaits⟩

/-- The end of a loop: all jumps out of it get their targets. -/
theorem closeLoop_appends {next finish : Nat} (hexit : ∀ k ∈ exit, d.Waits k)
    (hjumps : ∀ k ∈ jumps.breaks ++ jumps.continues, d.Waits k) (hnext : d.Rests next)
    (hfinish : d.Rests finish)
    (h : Yields t (do
      exit.forM fun k => liftM (Assembly.patchTo k finish)
      patchLoop jumps next finish) d u d') : d.Appends [] d' := by
  refine h.closeLoop (by exact .refl d) fun d1 k hk n hn _ hw => hw.still (.patchTo (.still ?_ hw) ?_)
  · exact (List.mem_append.1 hk).elim (fun hk => hexit k (Option.mem_toList.1 hk)) (hjumps k)
  · rcases hn with rfl | rfl
    · exact hnext.mono (c := .empty) hw
    · exact hfinish.mono (c := .empty) hw

/-- A loop that tests last may have its test dropped, or replaced by a jump. -/
theorem doWhile_lays (hcond : Lays t cond es) (hbody : Stmt.Lays t body ss es)
    (known : Option Constant) : Stmt.Lays t (doWhile body known cond) ss es := by
  intro d u d' hd hy
  cases known with
  | none =>
    simp only [doWhile, yields_bind, yields_position] at hy
    obtain ⟨start, d, ⟨rfl, rfl⟩, jumps, _, hrun, next, d1, ⟨rfl, rfl⟩, back, d2, htest, _, _,
      hpatch, finish, d3, ⟨rfl, rfl⟩, hclose⟩ := hy
    obtain ⟨code, hcode, hc1, hjumps⟩ := loopBody_covers hbody hd hrun
    obtain ⟨tested, hpieces, hw2, hback⟩ := loopTest_appends hcond htest
    have hw3 := appends_patchTo hback ((d.rests_end.later hc1.roles_eq).mono hw2) hpatch
    have hclosed := closeLoop_appends (by simp) (fun k hk => ((hjumps k hk).mono hw2).still hw3)
      ((d1.rests_end.mono hw2).mono (c := .empty) hw3) d3.rests_end hclose.withoutExit
    exact ⟨.seq code tested, .seq hcode (hpieces.mono (by simp) fun _ => id),
      ((hc1.appends hw2).still hw3).still hclosed⟩
  | some c =>
    simp only [doWhile, yields_bind, yields_position] at hy
    obtain ⟨start, d, ⟨rfl, rfl⟩, jumps, _, hrun, next, d1, ⟨rfl, rfl⟩, hy⟩ := hy
    obtain ⟨code, hcode, hc1, hjumps⟩ := loopBody_covers hbody hd hrun
    split at hy
    · simp only [yields_bind, yields_position] at hy
      obtain ⟨_, _, hback, finish, d2, ⟨rfl, rfl⟩, hclose⟩ := hy
      have hw2 := appends_jumpTo (d.rests_end.later hc1.roles_eq) hback
      have hclosed := closeLoop_appends (by simp) (fun k hk => (hjumps k hk).mono hw2)
        (d1.rests_end.mono hw2) d2.rests_end hclose.withoutExit
      exact ⟨.seq code .jump, .seq hcode .jump, (hc1.appends hw2).still hclosed⟩
    · simp only [yields_bind, yields_position] at hy
      obtain ⟨finish, d2, ⟨rfl, rfl⟩, hclose⟩ := hy
      have hclosed := closeLoop_appends (by simp) hjumps d2.rests_end d2.rests_end hclose.withoutExit
      exact ⟨code, hcode, hc1.still hclosed⟩

theorem getD_lays {x? : Option (Lowering Unit)} (h : ∀ x ∈ x?, Stmt.Lays t x ss es) :
    Stmt.Lays t (x?.getD (pure ())) ss es := by
  cases x? with
  | none =>
    rw [Option.getD_none]
    exact .ofQuiet
  | some x => exact h x rfl

theorem rounds_lays {step : Option (Lowering Unit)} (hsafe : ∀ x ∈ conds, Safe x)
    (hconds : ∀ x ∈ conds, Lays t x es) (hsteps : ∀ x ∈ step, Safe x)
    (hstep : ∀ x ∈ step, Stmt.Lays t x ss es) (hbody : Stmt.Lays t body ss es) (toStep : Bool) :
    Stmt.Lays t (rounds toStep conds step body) ss es := by
  intro d u d' hd hy
  have htests := safe_loopTests hsafe 0
  have hafter := safe_getD hsteps
  simp only [rounds, yields_bind, yields_position] at hy
  obtain ⟨start, d, ⟨rfl, rfl⟩, exit, d1, htest, jumps, _, hrun, next, d2, ⟨rfl, rfl⟩, _, d3, hnext,
    _, _, hback, finish, d4, ⟨rfl, rfl⟩, hclose⟩ := hy
  obtain ⟨tested, hpieces, hw1, hexit⟩ := exit_appends hsafe hconds htest
  have hc1 := hd.covers hw1
  obtain ⟨code, hcode, hc2, hjumps⟩ := loopBody_covers hbody hc1.atRest hrun
  obtain ⟨after, hafter, hc3⟩ := getD_lays hstep d2 _ d3 hc2.atRest hnext
  have hstart := ((d.rests_end.mono hw1).later hc2.roles_eq).later hc3.roles_eq
  have hw4 := appends_jumpTo hstart hback
  have hagain : d4.Rests (if toStep then d2.code.length else d.code.length) := by
    cases toStep with
    | false => exact hstart.mono hw4
    | true => exact (d2.rests_end.later hc3.roles_eq).mono hw4
  have hclosed := closeLoop_appends
    (fun k hk => (((hexit k hk).later hc2.roles_eq).later hc3.roles_eq).mono hw4)
    (fun k hk => ((hjumps k hk).later hc3.roles_eq).mono hw4) hagain d4.rests_end
    (yields_bind.2 hclose)
  exact ⟨.seq (.seq (.seq tested code) after) .jump,
    .seq (.seq (.seq (hpieces.mono (by simp) fun _ => id) hcode) hafter) .jump,
    (((hc1.trans hc2).trans hc3).appends hw4).still hclosed⟩

/-- A jump out of a loop waits for its target, like those before it. -/
theorem jump_lays (kind : JumpKind) : Stmt.Lays t (jump kind) ss es := by
  intro d u d' hd hy
  simp only [jump, yields_bind] at hy
  obtain ⟨k, d1, hjump, hrecord⟩ := hy
  obtain ⟨hw1, hwaits⟩ := appends_forward hjump
  have hc1 := hd.covers hw1
  simp only [recordJump, yields_getDraft_bind] at hrecord
  split at hrecord
  next => exact absurd hrecord not_yields_note
  next jumps outer hloops =>
    obtain rfl := yields_modifyLoops.1 hrecord
    refine ⟨.jump, .jump, ⟨hc1.atRest.waiting, hc1.atRest.level, fun j hj i hi => ?_⟩, hc1.roles_eq⟩
    have hbefore (j : LoopJumps) (hj : j ∈ d1.loops) (i : Nat) (hi : i ∈ j.breaks ++ j.continues) :=
      hc1.atRest.jumps j hj i hi
    rcases List.mem_cons.1 hj with rfl | hj
    · have hmem : i ∈ jumps.breaks ++ jumps.continues ∨ i = k := by
        cases kind <;> simp [addJump] at hi ⊢ <;> tauto
      rcases hmem with hi | rfl
      · exact (hbefore jumps (by simp [hloops]) i hi).of_roles rfl
      · exact hwaits.of_roles rfl
    · exact (hbefore j (by simp [hloops, hj]) i hi).of_roles rfl

theorem returnValue_lays (hcond : Lays t cond es) (ty : Ty) : Lays t (returnValue ty cond) es := by
  refine hcond.bind fun place => ?_
  exact .ofQuiet

theorem declare_lays (hcond : Lays t cond es) (ty : Ty) (known : Option Constant) (id : LocalId) :
    Lays t (declare ty known cond id) es := by
  unfold declare
  cases known with
  | none => exact hcond.bind fun _ => .ofQuiet
  | some c =>
    dsimp only
    split
    · exact .ofQuiet
    · exact hcond.bind fun _ => .ofQuiet

theorem lowerBody_lays {body : List Stmt} (h : ∀ s ∈ body, Stmt.Lays t s.lower ss es) :
    Stmt.Lays t (lowerBody body) ss es := by
  induction body with
  | nil =>
    rw [lowerBody]
    exact .ofQuiet
  | cons s rest ih =>
    rw [lowerBody]
    exact (h s (by simp)).bind fun _ => ih fun s hs => h s (by simp [hs])

theorem lowerBranch_lays (s? : Option Stmt) (h : ∀ s ∈ s?.toList, Stmt.Lays t s.lower ss es) :
    ∀ x ∈ lowerBranch s?, Stmt.Lays t x ss es := by
  intro x hx
  cases s? with
  | none => simp [lowerBranch] at hx
  | some s =>
    obtain rfl : s.lower = x := by simpa [lowerBranch] using hx
    exact h s (by simp)

theorem lowerOption_lays {e? : Option Expr} (h : ∀ e ∈ e?.toList, Lays t e.lower es) :
    ∀ x ∈ lowerOption e?, Lays t x es := by
  intro x hx
  cases e? with
  | none => simp [lowerOption] at hx
  | some e =>
    obtain rfl : e.lower = x := by simpa [lowerOption] using hx
    exact h e (by simp)

theorem Stmt.laysOut (s : Stmt) (h : Counted s.counts) :
    Stmt.Lays t s.lower s.children s.exprs := by
  induction s using Stmt.induct with
  | h s ih =>
    have hpart (x : Stmt) (hx : x ∈ s.children) : Stmt.Lays t x.lower s.children s.exprs :=
      (ih x hx fun n hn => h n (mem_counts.2 (.inr (mem_countsIn.2 ⟨x, hx, hn⟩)))).part hx
    have hexpr (e : Expr) (he : e ∈ s.exprs) : ActorScript.Lays t e.lower s.exprs :=
      (e.laysOut fun n hn => h n (mem_counts.2 (.inl (mem_countsAll.2 ⟨e, he, hn⟩)))).lays he
    cases s with
    | nop span =>
      rw [Stmt.lower]
      exact .ofQuiet
    | expr span value =>
      rw [Stmt.lower]
      exact .ofLays ((hexpr value (by simp [exprs])).bind fun _ => .ofQuiet)
    | sequence span body =>
      rw [Stmt.lower]
      exact lowerBody_lays hpart
    | block span body locals =>
      rw [Stmt.lower]
      exact (lowerBody_lays hpart).bind fun _ =>
        .ofLays (.forM fun _ _ => ⟨inferInstance, .ofQuiet⟩)
    | branch span cond whenTrue whenFalse =>
      have hcond := hexpr cond (by simp [exprs])
      have htrue := lowerBranch_lays whenTrue fun s hs =>
        hpart s (List.mem_append_left _ hs)
      have hfalse := lowerBranch_lays whenFalse fun s hs =>
        hpart s (List.mem_append_right _ hs)
      rw [Stmt.lower]
      split
      next first hfirst =>
        have := safe_lowerBranch whenTrue first hfirst
        exact branch_lays hcond _ (htrue first hfirst) (safe_lowerBranch whenFalse) hfalse
      next first _ hfirst =>
        have := safe_lowerBranch whenFalse first hfirst
        exact branch_lays hcond _ (hfalse first hfirst) (by simp) (by simp)
      next => exact .ofQuiet
    | whileLoop span cond body =>
      have hcond := hexpr cond (by simp [exprs])
      rw [Stmt.lower, whileLoop_eq_rounds]
      exact rounds_lays (safe_unlessKnown cond) (fun x hx => eq_lower_of_unlessKnown hx ▸ hcond)
        (by simp) (by simp) (hpart body (by simp [children])) false
    | doWhile span body cond =>
      rw [Stmt.lower]
      exact doWhile_lays (hexpr cond (by simp [exprs])) (hpart body (by simp [children])) _
    | forLoop span first cond step body =>
      rw [Stmt.lower, forLoop_eq_rounds]
      have hbefore := safe_getD (safe_lowerBranch first)
      have hrounds := safe_rounds body.lower (safe_lowerOption cond) (safe_lowerBranch step) true
      exact .bind (getD_lays (lowerBranch_lays _ fun s hs => hpart s (by simp_all [children])))
        fun _ => rounds_lays (safe_lowerOption cond) (lowerOption_lays hexpr)
          (safe_lowerBranch step) (lowerBranch_lays _ fun s hs => hpart s (by simp_all [children]))
          (hpart body (by simp [children])) true
    | jump span kind =>
      rw [Stmt.lower]
      exact jump_lays kind
    | ret span value =>
      cases value with
      | none =>
        rw [Stmt.lower]
        exact .ofQuiet
      | some value =>
        rw [Stmt.lower]
        exact .ofLays (returnValue_lays (hexpr value (by simp [exprs])) _)
    | declare span name ty value id =>
      cases value with
      | none =>
        rw [Stmt.lower]
        · exact fun _ _ _ _ hy => absurd hy not_yields_note
        · simp
      | some value =>
        cases id with
        | none =>
          rw [Stmt.lower]
          · exact fun _ _ _ _ hy => absurd hy not_yields_note
          · simp
        | some id =>
          rw [Stmt.lower]
          exact .ofLays (declare_lays (hexpr value (by simp [exprs])) _ _ _)

end Statements

end ActorScript
