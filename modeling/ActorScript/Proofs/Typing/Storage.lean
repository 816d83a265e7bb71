import ActorScript.Proofs.Typing.Conversions

/-! # What names, members and assignments make
-/

namespace ActorScript

namespace Typing

variable {σ : Setting} {s : Scope} {firm : Bool} {P : Nat → Expr → Prop} {n k : Nat}
  {span : Span} {x : Expr} {name : String}

theorem unknownIdentifier_ensures {α : Type} {Q : α → Prop} {near : List String} :
    Ensures σ s (unknownIdentifier span name near) Q :=
  .throw

theorem requireWritable_ensures :
    Ensures σ s (requireWritable span x) fun place => x.addressOf? = some (true, place) := by
  unfold requireWritable
  split
  next hplace => exact .pure hplace
  next => exact .reject

theorem checkField_ensures {field : Field} {owner : ClassId} :
    Ensures σ s (checkField span field owner) fun _ => True := by
  unfold checkField
  refine .whenever .warn fun _ => .read ?_
  refine .guarded fun _ => ?_
  split
  · exact .reject
  · exact .pure trivial

theorem identifierCandidates_ensures : Ensures σ s identifierCandidates fun _ => True :=
  .read (.get (fun _ hs => by rw [Scope.visibleNames_eq hs]) (.pure trivial))

/-- Through the self pointer the field itself is seen, or nothing of its name. -/
theorem sees_of_seesSameField {field : Field} {cls self owner : ClassId} {m : Mark}
    (hm : m.ty = some (.object self)) (hself : σ.selfClass? = some self) (hcls : σ.cls = some cls)
    (hfound : σ.world.findMember cls name = some (.field field, owner))
    (hsame : self ≠ cls → seesSameField σ.world self name field = true) :
    σ.Sees (.selfRef m) field := by
  have hty : (Expr.selfRef m).ty = .object self := by simp [Expr.ty, Expr.mark, hm]
  by_cases heq : self = cls
  · exact .ofObject hty (heq ▸ hfound)
  · have hsame := hsame heq
    unfold seesSameField at hsame
    split at hsame
    next f k hf => exact .ofObject hty (beq_iff_eq.1 hsame ▸ hf)
    next => cases hsame
    next hnone => exact .unseen rfl hty hself hcls heq hfound hnone

/-! ## Names -/

section Names

variable (h : Hereditary σ s firm P)

include h

theorem namedConstant_bears {v : Constant} (hv : σ.world.InStep → v.InStep) :
    Ensures σ s (namedConstant span name v) (P n) := by
  unfold namedConstant
  split
  next hty =>
    refine .pure (h.constant [] rfl ?_ (.nil (n := 0)) fun hw _ =>
      .of_ne_bool (hv hw) fun hbool => ?_)
    · cases hv : v.ty <;> simp_all [Ty.isInt, Ty.isFloat, Ty.bank?]
    · simp [hbool, Ty.isInt, Ty.isFloat] at hty
  next => exact .reject

theorem localAt_bears {id : LocalId} (hid : id ∈ s.lookupOrder) :
    Ensures σ s (localAt span id) (P n) := by
  refine .get (fun _ hs => by rw [Scope.typeOf_eq hs]) (.pure ?_)
  exact h.node (.localVar hid) .nil

theorem selfAt_bears : Ensures σ s (selfAt span) fun e =>
    P n e ∧ ∃ cls, σ.selfClass? = some cls ∧ e = .selfRef (Expr.settled span (.object cls)) := by
  refine .read ?_
  split
  next cls hcls => exact .pure ⟨h.node (.selfRef hcls) .nil, cls, hcls, rfl⟩
  next => exact .reject

theorem ownField_bears {field : Field} {cls owner : ClassId} (hcls : σ.cls = some cls)
    (hfound : σ.world.findMember cls name = some (.field field, owner)) :
    Ensures σ s (ownField span name field owner) (P n) := by
  refine .read ?_
  dsimp only
  refine .guarded fun _ => .bind checkField_ensures fun _ _ => ?_
  split
  next => exact .reject
  next self hself =>
    refine .guarded fun hsame => .bind .log fun _ _ => .bind (selfAt_bears h (n := n)) ?_
    rintro _ ⟨hx, self', hself', rfl⟩
    cases hself.symm.trans hself'
    refine .pure (h.overOne (.field rfl ?_) rfl hx)
    refine sees_of_seesSameField rfl hself hcls hfound fun hne => ?_
    simpa [hcls, hne] using hsame

theorem globalNamed_bears : Ensures σ s (globalNamed span name) (P n) := by
  refine .read ?_
  dsimp only
  split
  next hv => exact .bind .log fun _ _ => namedConstant_bears h fun hw => hw.global hv
  split
  next => exact .bind .log fun _ _ => .pure (h.fresh _ (Constant.fair_int _))
  next => exact .bind identifierCandidates_ensures fun _ _ => unknownIdentifier_ensures

theorem identifierAt_bears : Ensures σ s (identifierAt span name) (P n) := by
  refine .read (.get (fun _ hs => by rw [Scope.find?_eq hs]) ?_)
  split
  next id hid => exact localAt_bears h (List.mem_of_find?_eq_some hid)
  next =>
    split
    next hfound =>
      obtain ⟨cls, _, hfound⟩ := Option.bind_eq_some_iff.1 hfound
      exact .bind .log fun _ _ => namedConstant_bears h fun hw => hw.member hfound
    next field owner hfound =>
      obtain ⟨cls, hcls, hfound⟩ := Option.bind_eq_some_iff.1 hfound
      exact ownField_bears h hcls hfound
    next => exact .reject
    next => exact globalNamed_bears h

theorem memberOf_bears (hx : P n x) : Ensures σ s (memberOf span x name) (P n) := by
  refine .read ?_
  dsimp only
  split
  next cls hty =>
    split
    next hfound => exact .bind .log fun _ _ => namedConstant_bears h fun hw => hw.member hfound
    next field owner hfound =>
      exact .bind checkField_ensures fun _ _ =>
        .pure (h.overOne (.field (by rw [hty]; rfl) (.ofObject hty hfound)) rfl hx)
    next => exact .reject
    next => exact unknownIdentifier_ensures
  next => exact .reject

theorem storageOf_bears {op : StorageOp} : Ensures σ s (storageOf span op x) (P n) := by
  unfold storageOf
  exact .guarded fun _ => .guarded fun _ => .pure (h.fresh _ (Constant.fair_int _))

end Names

/-! ## Places -/

section Places

variable (h : Pliant σ s firm P)

include h

theorem elementAt_bears {array index : Expr} (ha : P n array) (hi : P k index) :
    Ensures σ s (elementAt span array index) (P (n + k)) := by
  unfold elementAt
  refine .guarded fun hint => ?_
  split
  next elem count hty =>
    refine .guarded fun _ => .guarded fun helem => ?_
    split
    next => exact .reject
    next place hplace =>
      simp only [ne_eq, decide_not, Bool.and_eq_true, Bool.not_eq_true', decide_eq_false_iff_not,
        not_and, Classical.not_not] at helem
      exact .pure (h.element ha hi hplace hty (by simpa using hint)
        (Classical.or_iff_not_imp_left.2 helem))
  next => exact .reject

theorem elementOf_bears {array index : Expr} (ha : P n array) (hi : P k index) :
    Ensures σ s (elementOf span array index) (P (n + k)) := by
  unfold elementOf
  split
  · exact .bind (toIntArgument_bears h.toHereditary hi) fun _ hi => elementAt_bears h ha hi.1
  · exact elementAt_bears h ha hi

theorem stepOf_bears (op : StepOp) (before : Bool) (hx : P n x) :
    Ensures σ s (stepOf span op before x) (P n) := by
  unfold stepOf
  exact .guarded fun hnum => .guarded fun hbool => .bind requireWritable_ensures fun _ hplace =>
    .pure (h.step hx hplace (by simpa using hnum) hbool)

end Places

/-- An assignment is of a value of the type of its left side. -/
theorem assignTo_bears {t : Scope} {target : Expr} (h : Pliant σ t firm P) (hx : P n x)
    {Q : Expr → Prop}
    (hassign : ∀ value place, P n value → value.ty = target.ty →
      target.addressOf? = some (true, place) →
      Q (.assign (Expr.settled span target.ty) place value)) :
    Ensures σ s (assignTo span target x) Q :=
  .bind (assignValue_bears h hx _) fun value hvalue => .bind requireWritable_ensures
    fun place hplace => .pure (hassign value place hvalue.1 hvalue.2 hplace)

theorem assignedAt_ensures : Ensures σ s (assignedAt span) fun e =>
    ∃ ty, s.targets.head? = some ty ∧ e = .assigned (Expr.settled span ty) := by
  refine .get (fun _ hs => by rw [Scope.targets_eq hs]) ?_
  split
  next ty rest heq => exact .pure ⟨ty, by rw [heq]; rfl, rfl⟩
  next => exact .reject

end Typing

end ActorScript
