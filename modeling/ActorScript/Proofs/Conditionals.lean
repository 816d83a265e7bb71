import ActorScript.Proofs.MemberAccess
import ActorScript.Proofs.Typing.Balance

/-! # Conditionals with a known condition

A conditional whose condition is known comes to one of its branches. What it is then is compared
here with what the same conditional is under a condition that is not known: it is accepted as well
and is kept in registers of the same bank, but its type is that of the branch. So it has the type in
which the branches meet only if the branch has it already, or is made a float for the other one.
-/

namespace ActorScript

namespace Typing

variable {α β : Type} {σ : Setting} {s : Scope}

/-! ## Outcomes

A step that only adds diagnostics comes to the same value or rejection from scopes that differ in
diagnostics only, so outcomes can be followed without the scope. -/

def outcome (x : Typing α) (σ : Setting) (s : Scope) : Except Rejection α :=
  (x.runFrom σ s).1

theorem outcome_core (x : Typing α) [h : Noting x] {s' : Scope} (hcore : s'.core = s.core) :
    outcome x σ s' = outcome x σ s := by
  obtain ⟨result, ds, hrun, -⟩ := h.ensures σ s
  rw [outcome, outcome, hrun s' hcore, hrun s rfl]

theorem outcome_bind (x : Typing α) (f : α → Typing β) [hx : Noting x] [∀ a, Noting (f a)] :
    outcome (x >>= f) σ s = outcome x σ s >>= fun a => outcome (f a) σ s := by
  have hcore : (x.runFrom σ s).2.core = s.core := (hx.notes σ s).core
  rw [outcome, outcome, runFrom_bind]
  rcases hrun : x.runFrom σ s with ⟨r | a, s'⟩
  · rfl
  · rw [hrun] at hcore
    exact outcome_core (f a) hcore

theorem outcome_bind_ok {x : Typing α} {f : α → Typing β} [Noting x] [∀ a, Noting (f a)] {b : β} :
    outcome (x >>= f) σ s = .ok b ↔
      ∃ a, outcome x σ s = .ok a ∧ outcome (f a) σ s = .ok b := by
  rw [outcome_bind]
  cases outcome x σ s with
  | error r => simp [bind, Except.bind]
  | ok a => simp [bind, Except.bind]

theorem outcome_read {f : Setting → Typing α} :
    outcome (MonadReader.read >>= f) σ s = outcome (f σ) σ s := rfl

theorem Ensures.outcome_ok {x : Typing α} {Q : α → Prop} (h : Ensures σ s x Q) {a : α}
    (ha : outcome x σ s = .ok a) : Q a := by
  obtain ⟨_, ds, hrun, hQ⟩ := h
  rw [outcome, hrun s rfl] at ha
  exact hQ a ha

/-! ## Branches -/

section Branches

variable {span : Span} {x cond whenTrue whenFalse e : Expr} {ty : Ty}

/-- A branch keeps its type unless it is made a float. -/
theorem widen_type : Ensures σ s (widen ty x) fun e =>
    e.ty = if ty.isFloat && !x.ty.isFloat then .double else x.ty := by
  unfold widen
  by_cases hfloat : ty.isFloat = true
  · rw [if_pos hfloat]
    unfold toFloat
    by_cases hx : x.ty.isFloat = true
    · rw [if_pos hx]
      exact .pure (by simp [hx])
    · have hgoal : (if ty.isFloat && !x.ty.isFloat then Ty.double else x.ty) = .double := by
        simp [hfloat, hx]
      rw [if_neg hx, hgoal]
      split
      · exact .bind .tolerate fun _ _ => .pure rfl
      split
      · exact .reject
      split
      · exact .pure rfl
      · exact .pure rfl
  · rw [if_neg hfloat]
    exact .pure (by simp [hfloat])

/-- Branches of which one is a float meet in a double. -/
theorem branchType_float {w : World} {a b : Ty} (h : branchType? w a b = some ty)
    (hfloat : ty.isFloat = true) : ty = .double := by
  unfold branchType? at h
  split at h
  next hnum =>
    simp only [Bool.and_eq_true] at hnum
    cases h
    rw [unify_numbers w hnum.1 hnum.2, Option.getD_some] at hfloat ⊢
    unfold meetType meetNumbers at hfloat ⊢
    split at hfloat
    · cases hfloat
    next hbool =>
      rw [if_neg hbool]
      split at hfloat
      · split at hfloat <;> cases hfloat
      next hint => rw [if_neg hint]
  split at h
  next hnum heq =>
    subst heq
    cases h
    cases ty <;> simp_all [Ty.isFloat, Ty.isNumeric]
  split at h
  next hptr =>
    cases h
    cases ty <;> simp_all [Ty.isFloat, Ty.isPointer, Ty.bank?]
  split at h
  next hptr =>
    cases h
    cases ty <;> simp_all [Ty.isFloat, Ty.isPointer, Ty.bank?]
  next => cases h

/-- A known condition leaves a branch, widened to what the branches meet in. -/
theorem outcome_conditionalOf_known {holds : Bool} (hknown : known? cond = some holds)
    (hty : branchType? σ.world whenTrue.ty whenFalse.ty = some ty) :
    outcome (conditionalOf span cond whenTrue whenFalse) σ s =
      outcome (widen ty (if holds then whenTrue else whenFalse)) σ s := by
  unfold conditionalOf
  rw [outcome_read, hty]
  dsimp only
  rw [hknown]
  cases holds <;> rfl

/-- Without a known condition both branches are widened, and the type is what they meet in. -/
theorem outcome_conditionalOf_open (hopen : known? cond = none)
    (h : outcome (conditionalOf span cond whenTrue whenFalse) σ s = .ok e) :
    branchType? σ.world whenTrue.ty whenFalse.ty = some e.ty ∧
      (∃ t, outcome (widen e.ty whenTrue) σ s = .ok t) ∧
      ∃ f, outcome (widen e.ty whenFalse) σ s = .ok f := by
  unfold conditionalOf at h
  rw [outcome_read] at h
  cases hty : branchType? σ.world whenTrue.ty whenFalse.ty with
  | none =>
    rw [hty] at h
    obtain ⟨_, -, h⟩ := outcome_bind_ok.1 h
    obtain ⟨_, -, h⟩ := outcome_bind_ok.1 h
    cases h
  | some ty =>
    rw [hty] at h
    dsimp only at h
    rw [hopen] at h
    obtain ⟨t, ht, h⟩ := outcome_bind_ok.1 h
    obtain ⟨f, hf, h⟩ := outcome_bind_ok.1 h
    cases h
    exact ⟨rfl, ⟨t, ht⟩, f, hf⟩

end Branches

theorem outcome_conditional {m : Mark} {cond whenTrue whenFalse e : Expr} (hm : m.ty = none) :
    outcome (Expr.conditional m cond whenTrue whenFalse).settle σ s = .ok e ↔
      ∃ c t f, outcome cond.settleBool σ s = .ok c ∧ outcome whenTrue.settle σ s = .ok t ∧
        outcome whenFalse.settle σ s = .ok f ∧
        outcome (conditionalOf m.span c t f) σ s = .ok e := by
  rw [Expr.settle, unlessTyped_eq (by exact hm), Expr.settleBool]
  simp only [outcome_bind_ok]
  constructor
  · rintro ⟨x, hx, c, hc, t, ht, f, hf, he⟩
    exact ⟨c, t, f, ⟨x, hx, hc⟩, ht, hf, he⟩
  · rintro ⟨c, t, f, ⟨x, hx, hc⟩, ht, hf, he⟩
    exact ⟨x, hx, c, hc, t, ht, f, hf, he⟩

/-! ## The type of a conditional -/

/-- The type of a conditional is what its branches meet in while its condition is not known. With a
known condition in its place it is accepted as well and goes to the same bank, and its type is the
same exactly if the branch left has that type, or is made a float for the other one. -/
theorem known_condition_keeps_type {m : Mark} {known unknown whenTrue whenFalse k u e : Expr}
    {holds : Bool} (hm : m.ty = none) (hk : outcome known.settleBool σ s = .ok k)
    (hholds : known? k = some holds) (hu : outcome unknown.settleBool σ s = .ok u)
    (hopen : known? u = none)
    (he : outcome (Expr.conditional m unknown whenTrue whenFalse).settle σ s = .ok e) :
    ∃ t f e', outcome whenTrue.settle σ s = .ok t ∧ outcome whenFalse.settle σ s = .ok f ∧
      branchType? σ.world t.ty f.ty = some e.ty ∧
      outcome (Expr.conditional m known whenTrue whenFalse).settle σ s = .ok e' ∧
      e'.ty.bank? = e.ty.bank? ∧
      (e'.ty = e.ty ↔ (if holds then t else f).ty = e.ty ∨
        (e.ty.isFloat = true ∧ (if holds then t else f).ty.isFloat = false)) := by
  obtain ⟨u', t, f, hu', ht, hf, he⟩ := (outcome_conditional hm).1 he
  cases hu.symm.trans hu'
  obtain ⟨hty, ⟨t', ht'⟩, f', hf'⟩ := outcome_conditionalOf_open hopen he
  obtain ⟨branch, hbranch⟩ : ∃ x, (if holds then t else f) = x := ⟨_, rfl⟩
  have hagree : e.ty.isFloat = false → Ty.Agree branch.ty e.ty := by
    intro hfloat
    have h := agree_of_branchType hty hfloat
    cases holds with
    | true => exact hbranch ▸ h.1
    | false => exact hbranch ▸ h.2
  -- Either branch was widened, so the one that is left can be.
  obtain ⟨e', he'⟩ : ∃ e', outcome (widen e.ty branch) σ s = .ok e' := by
    cases holds with
    | true => exact hbranch ▸ ⟨t', ht'⟩
    | false => exact hbranch ▸ ⟨f', hf'⟩
  have htype := widen_type.outcome_ok he'
  refine ⟨t, f, e', ht, hf, hty, ?_, ?_, ?_⟩
  · refine (outcome_conditional hm).2 ⟨k, t, f, hk, ht, hf, ?_⟩
    rw [outcome_conditionalOf_known hholds hty, hbranch, he']
  · rw [htype]
    by_cases hfloat : e.ty.isFloat = true
    · rw [Ty.bank_of_isFloat hfloat]
      by_cases hx : branch.ty.isFloat = true
      · simp [hfloat, hx, Ty.bank_of_isFloat hx]
      · simp [hfloat, hx, Ty.bank?]
    · simp [hfloat, (hagree (by simpa using hfloat)).1]
  · rw [htype, hbranch]
    by_cases hfloat : e.ty.isFloat = true
    · have hdouble := branchType_float hty hfloat
      by_cases hx : branch.ty.isFloat = true
      · simp [hfloat, hx]
      · rw [if_pos (by simp [hfloat, hx]), ← hdouble]
        exact iff_of_true rfl (.inr ⟨hfloat, by simpa using hx⟩)
    · simp [hfloat]

/-- A number without sign, and a truth value. -/
def countAndFlag : Scope where
  locals := #[⟨"count", .uint, true⟩, ⟨"flag", .bool, true⟩]
  params := [0, 1]

/-- Under a flag a count and one meet in an integer with a sign, which the count alone is not. -/
theorem known_condition_keeps_type_count :
    let σ := Setting.ofImps 1
    let m : Mark := { span := ⟨0, 0⟩ }
    let known : Expr := .ofConstant ⟨0, 0⟩ (.bool true)
    let one : Expr := .ofConstant ⟨0, 0⟩ (.int 1)
    let choice (condition : Expr) : Expr := .conditional m condition (.localVar m 0) one
    ∃ e e', outcome (choice (.localVar m 1)).settle σ countAndFlag = .ok e ∧ e.ty = .int ∧
      outcome (choice known).settle σ countAndFlag = .ok e' ∧ e'.ty.bank? = e.ty.bank? ∧
      ¬ e'.ty = e.ty := by
  intro σ m known one choice
  have hunknown : outcome (Expr.settleBool (.localVar m 1)) σ countAndFlag =
      .ok (.localVar (Expr.settled ⟨0, 0⟩ .bool) 1) := rfl
  have hopen : outcome (choice (.localVar m 1)).settle σ countAndFlag =
      .ok (.conditional (Expr.settled ⟨0, 0⟩ .int) (.localVar (Expr.settled ⟨0, 0⟩ .bool) 1)
        (.localVar (Expr.settled ⟨0, 0⟩ .uint) 0) one) := rfl
  obtain ⟨t, f, e', ht, -, -, he', hbank, htype⟩ :=
    known_condition_keeps_type rfl (show outcome known.settleBool σ _ = .ok known from rfl)
      (show known? known = some true from rfl) hunknown rfl hopen
  refine ⟨_, e', hopen, rfl, he', hbank, fun heq => ?_⟩
  have ht : outcome (Expr.settle (.localVar m 0)) σ countAndFlag = .ok t := ht
  cases ht
  rcases htype.1 heq with hty | hty
  · cases hty
  · cases hty.1

def typeOfText? (σ : Setting) (s : Scope) (text : String) : Option Ty :=
  (parseExpression text).toOption.bind fun e => (outcome e.settle σ s).toOption.map Expr.ty

theorem known_condition_changes_type :
    typeOfText? (.ofImps 1) countAndFlag "flag ? count : 1" = some .int ∧
      typeOfText? (.ofImps 1) countAndFlag "true ? count : 1" = some .uint := by
  decide +kernel

end Typing

end ActorScript
