import ActorScript.Proofs.Typing.Rules

/-! # What conversions make

A conversion that is not rejected gives a tree of exactly the type wanted, whatever its operand is.
The same goes for the value of an assignment. The scope does not matter for it.
-/

namespace ActorScript

namespace Typing

variable {σ : Setting} {s t : Scope} {firm : Bool} {P : Nat → Expr → Prop} {n : Nat}
  {span : Span} {x : Expr}

section Numbers

variable (h : Hereditary σ t firm P) (hx : P n x)

include h hx

/-! ## Numbers -/

theorem toBool_bears : Ensures σ s (toBool span x) fun e => P n e ∧ e.ty = .bool := by
  unfold toBool
  split
  next hty => exact .pure ⟨hx, hty⟩
  split
  next => exact .reject
  next hbank =>
    split
    next => exact .pure ⟨h.fresh _ (Constant.fair_bool _), rfl⟩
    next =>
      simp only [Bool.or_eq_true, decide_eq_true_eq, not_or] at hbank
      obtain ⟨b, hb⟩ := Option.ne_none_iff_exists'.1 hbank.1
      have htakes : CastKind.Takes .bool b := by
        rintro rfl
        exact hbank.2 hb
      exact .pure ⟨h.cast .bool hb htakes hx, rfl⟩

/-- Nothing is made a truth value by making it an integer. -/
theorem toInt_bears (quiet : Bool) : Ensures σ s (toInt span x quiet) fun e =>
    P n e ∧ e.ty.isWord = true ∧ (e.ty = .bool → x.ty = .bool) := by
  unfold toInt
  split
  next =>
    exact .bind .tolerate fun _ _ => .pure ⟨h.fresh _ (Constant.fair_int 0), rfl, by rintro ⟨⟩⟩
  next hname =>
    split
    next hb => exact .pure ⟨hx, Ty.isWord_of_bank hb hname, id⟩
    split
    next => exact .reject
    next hfloat =>
      split
      next =>
        exact .whenever .warn fun _ => .pure ⟨h.fresh _ (Constant.fair_int _), rfl, by rintro ⟨⟩⟩
      next =>
        exact .whenever .warn fun _ => .pure
          ⟨h.overOne (.intCast (by simpa using hfloat)) rfl hx, rfl, by rintro ⟨⟩⟩

theorem toIntArgument_bears : Ensures σ s (toIntArgument span x) fun e =>
    P n e ∧ e.ty.isWord = true ∧ (e.ty = .bool → x.ty = .bool) :=
  .read (toInt_bears h hx _)

/-- Numbers that are not constants stay so. -/
theorem toFloat_bears : Ensures σ s (toFloat span x) fun e =>
    P n e ∧ e.ty.isFloat = true ∧ (x.ty.isNumeric = true → e.isConstant = x.isConstant) := by
  unfold toFloat
  split
  next hfloat => exact .pure ⟨hx, hfloat, fun _ => rfl⟩
  split
  next hname =>
    refine .bind .tolerate fun _ _ => .pure ⟨h.fresh _ (Constant.fair_float 0.0), rfl, fun hnum => ?_⟩
    simp [hname, Ty.isNumeric] at hnum
  split
  next => exact .reject
  next hb =>
    split
    next hc =>
      exact .pure ⟨h.fresh _ (Constant.fair_float _), rfl, fun _ => by simp [Expr.isConstant, hc]; rfl⟩
    next hc =>
      exact .pure ⟨h.cast .float (by simpa using hb) rfl hx, rfl,
        fun _ => by simp [Expr.isConstant, hc]; rfl⟩

/-! ## Texts -/

theorem toName_bears : Ensures σ s (toName span x) fun e => P n e ∧ e.ty = .name := by
  unfold toName
  split
  next hty => exact .pure ⟨hx, hty⟩
  next hty =>
    split
    · exact .pure ⟨h.fresh _ (Constant.fair_name _), rfl⟩
    · exact .pure ⟨h.cast .name (by rw [hty]; rfl) rfl hx, rfl⟩
  next => exact .reject

theorem toText_bears : Ensures σ s (toText span x) fun e => P n e ∧ e.ty = .string := by
  unfold toText
  split
  next hty => exact .pure ⟨hx, hty⟩
  all_goals try exact .reject
  all_goals
    next hty =>
      split
      · exact .read (.pure ⟨h.fresh _ (Constant.fair_string _), rfl⟩)
      · exact .pure ⟨h.cast .string (by rw [hty]; rfl) rfl hx, rfl⟩

end Numbers

/-! ## Classes and states -/

section States

variable (h : Hereditary σ t firm P)

include h

theorem classNamed_bears (target : ClassId) (name : String) :
    Ensures σ s (classNamed span target name) fun e => P n e ∧ e.ty = .classPtr target := by
  have hpointer (address : Address) : P n (.ofConstant span ⟨.classPtr target, .pointer address⟩) :=
    h.fresh _ (Constant.fair_pointer rfl _)
  refine .read ?_
  dsimp only
  split
  · exact .pure ⟨hpointer _, rfl⟩
  split
  · exact .bind .tolerate fun _ _ => .pure ⟨hpointer _, rfl⟩
  split
  · exact .bind .log fun _ _ => .pure ⟨hpointer _, rfl⟩
  · exact .reject

theorem classFrom_bears (hx : P n x) (hb : x.ty.bank?.isSome) (target : ClassId) :
    Ensures σ s (classFrom span x target) fun e => P n e ∧ e.ty = .classPtr target := by
  unfold classFrom
  split
  · exact classNamed_bears h _ _
  split
  · exact .bind (toName_bears h hx) fun x hx =>
      .pure ⟨h.overOne (.classCast (by rw [hx.2]; rfl)) rfl hx.1, rfl⟩
  · exact .pure ⟨h.overOne (.classCast hb) rfl hx, rfl⟩

theorem stateAt_bears (index : Nat) :
    Ensures σ s (stateAt span index) fun e => P n e ∧ e.ty = .state := by
  refine .read ?_
  split
  · exact .reject
  split
  · exact .pure ⟨h.fresh _ (Constant.fair_state _), rfl⟩
  · exact .reject

omit h in
theorem requireAction_ensures : Ensures σ s (requireAction span) fun _ => True := by
  refine .read ?_
  split
  · exact .reject
  · exact .pure trivial

theorem runtimeStateAt_bears (hx : P n x) :
    Ensures σ s (runtimeStateAt span x false) fun e => P n e ∧ e.ty = .state := by
  unfold runtimeStateAt
  split
  · exact .reject
  split
  next hb => exact .pure ⟨h.overOne (.runtimeState hb) rfl hx, rfl⟩
  next =>
    exact .bind (toIntArgument_bears h hx) fun x hx =>
      .pure ⟨h.overOne (.runtimeState (Ty.bank_of_isWord hx.2.1)) rfl hx.1, rfl⟩

theorem stateFor_bears (text : String) (names : List String) (scope : Option ClassId) :
    Ensures σ s (stateFor span text names scope) fun e => P n e ∧ e.ty = .state := by
  have hlabel : P n (.stateLabel (Expr.settled span .state) text names false) :=
    h.node .stateLabel .nil
  unfold stateFor
  dsimp only
  split
  · exact .pure ⟨h.fresh _ (Constant.fair_state _), rfl⟩
  split
  · exact .pure ⟨hlabel, rfl⟩
  refine .read ?_
  split
  · exact .pure ⟨h.fresh _ (Constant.fair_state _), rfl⟩
  · exact .bind .tolerate fun _ _ => .pure ⟨hlabel, rfl⟩

omit h in
theorem labelScope_ensures {cls : ClassId} {name : String} :
    Ensures σ s (labelScope span cls name) fun _ => True := by
  refine .read ?_
  dsimp only
  split
  · exact .pure trivial
  split
  · exact .reject
  split
  · exact .pure trivial
  · exact .reject

theorem labelled_bears (text : String) :
    Ensures σ s (labelled span text) fun e => P n e ∧ e.ty = .state := by
  refine .read ?_
  dsimp only
  split
  · exact .reject
  split
  · exact Ensures.bind (P := fun _ => True) (.pure trivial) fun _ _ => stateFor_bears h _ _ _
  · refine Ensures.bind (P := fun _ => True) ?_ ?_
    · exact labelScope_ensures
    · exact fun _ _ => stateFor_bears h _ _ _

omit h in
theorem cannotConvert_ensures {α : Type} {source target : Ty} {Q : α → Prop} :
    Ensures σ s (cannotConvert span source target) Q :=
  .bind .describe fun _ _ => .bind .describe fun _ _ => .reject

theorem toState_bears (hx : P n x) :
    Ensures σ s (toState span x) fun e => P n e ∧ e.ty = .state := by
  unfold toState
  split
  · exact labelled_bears h _
  · exact labelled_bears h _
  · split
    · exact .reject
    · exact stateAt_bears h _
  · exact .bind requireAction_ensures fun _ _ => runtimeStateAt_bears h hx
  · exact cannotConvert_ensures

end States

/-! ## Other types of operands -/

section Retyping

variable (h : Pliant σ t firm P) (hx : P n x)

include h hx

theorem toColor_bears : Ensures σ s (toColor span x) fun e => P n e ∧ e.ty = .color := by
  unfold toColor
  split
  next hty => exact .pure ⟨hx, hty⟩
  next hty => exact .pure ⟨h.retype_word hx (by rw [hty]; rfl) rfl (by simp), by simp⟩
  next hty =>
    split
    · split
      · exact .pure ⟨h.fresh _ (Constant.fair_color _), rfl⟩
      · exact .bind .warn fun _ _ => .pure ⟨h.fresh _ (Constant.fair_color 0), rfl⟩
    · exact .pure ⟨h.cast .color (by rw [hty]; rfl) rfl hx, rfl⟩
  next => exact .reject

theorem toSound_bears : Ensures σ s (toSound span x) fun e => P n e ∧ e.ty = .sound := by
  unfold toSound
  split
  next hty => exact .pure ⟨hx, hty⟩
  next hty => exact .pure ⟨h.retype_word hx (by rw [hty]; rfl) rfl (by simp), by simp⟩
  next hty =>
    split
    · exact .read (.pure ⟨h.fresh _ (Constant.fair_sound _), rfl⟩)
    · exact .pure ⟨h.cast .sound (by rw [hty]; rfl) rfl hx, rfl⟩
  next => exact .reject

theorem toClass_bears (target : ClassId) :
    Ensures σ s (toClass span x target) fun e => P n e ∧ e.ty = .classPtr target := by
  refine .read ?_
  dsimp only
  split
  next hty => exact .pure ⟨h.retype_null hx hty rfl, by simp⟩
  next hty =>
    split
    next hdescends =>
      exact .pure ⟨h.retype hx (hty ▸ .classPtr hdescends) (hty ▸ .classPtr), by simp⟩
    · exact .reject
  next hty => exact classFrom_bears h.toHereditary hx (by rw [hty]; rfl) _
  next hty => exact classFrom_bears h.toHereditary hx (by rw [hty]; rfl) _
  next => exact .bind .describe fun _ _ => .reject

/-- A conversion gives exactly the type that it is asked for, which is never that of nothing. -/
theorem convert_bears (target : Ty) (quiet : Bool) :
    Ensures σ s (convert span x target quiet) fun e => P n e ∧ e.ty = target ∧ target ≠ .void := by
  unfold convert
  split
  next => exact cannotConvert_ensures
  next hvoid =>
    simp only [Bool.or_eq_true, decide_eq_true_eq, not_or] at hvoid
    suffices hexact : Ensures σ s _ fun e => P n e ∧ e.ty = target from
      hexact.mono fun _ he => ⟨he.1, he.2, hvoid.2⟩
    split
    next hty => exact .pure ⟨hx, hty⟩
    split
    next hnull =>
      simp only [Bool.and_eq_true, decide_eq_true_eq] at hnull
      exact .pure ⟨h.retype_null hx hnull.1 hnull.2, by simp⟩
    split
    · exact .bind (toFloat_bears h.toHereditary hx) fun _ he =>
        .pure ⟨h.retype_float he.1 he.2.1 rfl, by simp⟩
    · exact .bind (toInt_bears h.toHereditary hx quiet) fun _ he =>
        .pure ⟨h.retype_word he.1 he.2.1 rfl (by simp), by simp⟩
    · exact toBool_bears h.toHereditary hx
    · exact toText_bears h.toHereditary hx
    · exact toName_bears h.toHereditary hx
    · exact toSound_bears h hx
    · exact toColor_bears h hx
    · exact toState_bears h.toHereditary hx
    · exact toClass_bears h hx _
    · split
      next hty =>
        refine .read ?_
        split
        next hdescends =>
          exact .pure ⟨h.retype hx (hty ▸ .object hdescends) (hty ▸ .object), by simp⟩
        · exact cannotConvert_ensures
      next => exact cannotConvert_ensures
    · exact cannotConvert_ensures

/-! ## Assignments -/

theorem assignNumber_bears {ty : Ty} (hty : ty.isNumeric = true) :
    Ensures σ s (assignNumber ty x) fun e => P n e ∧ e.ty = ty := by
  unfold assignNumber
  split
  next heq => exact .pure ⟨hx, heq⟩
  split
  next => exact toBool_bears h.toHereditary hx
  next =>
    exact .bind (toFloat_bears h.toHereditary hx) fun _ he =>
      .pure ⟨h.retype_float he.1 he.2.1 rfl, by simp⟩
  next hbool hfloat =>
    have hfloat : ty.isFloat = false := by
      cases ty <;> simp_all [Ty.isFloat]
    exact .bind (toIntArgument_bears h.toHereditary hx) fun _ he =>
      .pure ⟨h.retype_word he.1 he.2.1 (Ty.isWord_of_isNumeric hty hfloat) hbool, by simp⟩

/-- The value of an assignment has exactly the type of the left side. -/
theorem assignValue_bears (ty : Ty) :
    Ensures σ s (assignValue span ty x) fun e => P n e ∧ e.ty = ty := by
  unfold assignValue
  split
  next hnum =>
    simp only [Bool.and_eq_true] at hnum
    exact assignNumber_bears h hx hnum.1
  split
  next heq =>
    split
    · exact .reject
    · exact .reject
    · exact .pure ⟨hx, heq.symm⟩
  split
  next hptr =>
    simp only [Bool.and_eq_true, decide_eq_true_eq] at hptr
    exact .pure ⟨h.retype_null hx hptr.2 hptr.1, by simp⟩
  split
  · exact toClass_bears h hx _
  · exact toText_bears h.toHereditary hx
  · exact toText_bears h.toHereditary hx
  · exact toName_bears h.toHereditary hx
  · exact .reject

end Retyping

end Typing

end ActorScript
