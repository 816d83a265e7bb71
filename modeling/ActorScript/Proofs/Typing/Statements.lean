import ActorScript.Proofs.Typing.Scopes

/-! # Typing gives settled statements

A statement that is not rejected is settled, takes the numbers of its variables in order,
mentions only variables that are visible, and jumps out of loops only.
-/

namespace ActorScript

open Typing

/-! ## Expressions in a scope -/

/-- Only visible variables are mentioned: the type of any other would not be known. -/
theorem Expr.SettledIn.mentions {σ : Setting} {s : Scope} {e : Expr} (h : e.SettledIn σ s)
    {v : LocalId} (hv : e.Mentions v) : v ∈ s.lookupOrder := by
  obtain ⟨m, hpart⟩ := hv
  have hbank (ty : Ty) : m.bank? = ((Context.ofScope σ s ty).types v).bank? := by
    obtain ⟨_, _, hlocal⟩ := (h _ (Context.ofScope_fits σ s ty)).part hpart
    cases hlocal
    assumption
  refine Classical.byContradiction fun hout => ?_
  have hint := hbank .int
  have hstring := hbank .string
  simp only [Context.ofScope, if_neg hout] at hint hstring
  simp [hint, Ty.bank?] at hstring

def Expr.ConditionIn (σ : Setting) (s : Scope) (e : Expr) : Prop :=
  ∀ c : Context, c.Fits σ s → c.Condition e

theorem Expr.ConditionIn.settledIn {σ : Setting} {s : Scope} {e : Expr}
    (h : e.ConditionIn σ s) : e.SettledIn σ s :=
  fun c hc => (h c hc).1

theorem Expr.SettledIn.condition {σ : Setting} {s : Scope} {e : Expr} (h : e.SettledIn σ s)
    (hty : e.ty = .bool) : e.ConditionIn σ s :=
  fun c hc => ⟨h c hc, by rw [hty]; rfl⟩

theorem Expr.mentions_markTail {e : Expr} {v : LocalId} (h : e.markTail.Mentions v) :
    e.Mentions v := by
  have hchildren : e.markTail.children = e.children := by cases e <;> rfl
  obtain ⟨m, hpart⟩ := h
  generalize hnode : Expr.localVar m v = node at hpart
  generalize hroot : e.markTail = root at hpart
  cases hpart with
  | root =>
    subst hnode
    cases e <;> first | exact ⟨m, hroot ▸ .root⟩ | simp [Expr.markTail] at hroot
  | operand hchild hpart =>
    subst hnode hroot
    exact ⟨m, .operand (hchildren ▸ hchild) hpart⟩

/-! ## Statements between scopes -/

/-- How a typed statement stands between the scopes before and after it, where `P` is known of its
expressions in the scopes that they were typed in. -/
inductive Stmt.Stands (P : Scope → Expr → Prop) :
    Scope → Scope → List LocalId → Nat → Stmt → Prop
  | nop {s s' added jumps span} : s.Extends s' added jumps → Stands P s s' added jumps (.nop span)
  | expr {s span value} : P s value → Stands P s s [] 0 (.expr span value)
  /-- The scope goes on without the statement taking part. -/
  | later {s s₁ s' added added' jumps jumps' x} : s.Extends s₁ added jumps →
      s₁.Extends s' added' jumps' → Stands P s s₁ added jumps x →
      Stands P s s' (added ++ added') (jumps + jumps') x
  /-- The statement stands behind a part that is dropped. -/
  | behind {s s₁ s' added added' jumps jumps' x} : s.Extends s₁ added jumps →
      s₁.Extends s' added' jumps' → Stands P s₁ s' added' jumps' x →
      Stands P s s' (added ++ added') (jumps + jumps') x
  | nil {s span} : Stands P s s [] 0 (.sequence span [])
  | cons {s s₁ s' added added' jumps jumps' span x rest} : s.Extends s₁ added jumps →
      s₁.Extends s' added' jumps' → Stands P s s₁ added jumps x →
      Stands P s₁ s' added' jumps' (.sequence span rest) →
      Stands P s s' (added ++ added') (jumps + jumps') (.sequence span (x :: rest))
  | block {s s₁ added jumps span body} : s.pushBlock.Extends s₁ added jumps →
      Stands P s.pushBlock s₁ added jumps (.sequence span body) →
      Stands P s s₁.popBlock.2 [] jumps (.block span body added)
  | branch {s s₁ s' added added' jumps jumps' span cond whenTrue whenFalse} :
      P s cond → cond.ty = .bool → s.Extends s₁ added jumps → s₁.Extends s' added' jumps' →
      Stands P s s₁ added jumps (whenTrue.getD (.nop span)) →
      Stands P s₁ s' added' jumps' (whenFalse.getD (.nop span)) →
      (whenTrue = none → whenFalse ≠ none) →
      Stands P s s' (added ++ added') (jumps + jumps') (.branch span cond whenTrue whenFalse)
  /-- A statement from a loop that is none after all, without jumps. -/
  | ofLoop {s s₁ added body} :
      Stands P s.enterLoop s₁ added 0 body → Stands P s s₁.leaveLoop.2 added 0 body
  | whileLoop {s s₁ added count span cond body} : P s cond → cond.ty = .bool →
      s.enterLoop.Extends s₁ added count → Stands P s.enterLoop s₁ added count body →
      Stands P s s₁.leaveLoop.2 added 0 (.whileLoop span cond body)
  | doWhile {s s₁ added count span cond body} : s.enterLoop.Extends s₁ added count →
      P s₁.leaveLoop.2 cond → cond.ty = .bool → Stands P s.enterLoop s₁ added count body →
      Stands P s s₁.leaveLoop.2 added 0 (.doWhile span body cond)
  | forLoop {s s₁ s₂ added count span step body} {cond : Option Expr} :
      (∀ e ∈ cond, P s e ∧ e.ty = .bool) →
      s.enterLoop.Extends s₁ [] 0 → s₁.Extends s₂ added count →
      Stands P s.enterLoop s₁ [] 0 (step.getD (.nop span)) → Stands P s₁ s₂ added count body →
      Stands P s s₂.leaveLoop.2 added 0 (.forLoop span none cond step body)
  | jump {s s' span kind} : s'.locals = s.locals → Stands P s s' [] 1 (.jump span kind)
  | ret {s s' span} {value : Option Expr} : (∀ e ∈ value, P s e) → s.Extends s' [] 0 → s'.locals = s.locals →
      Stands P s s' [] 0 (.ret span (value.map Expr.markTail))
  /-- A variable is declared with a value that was typed, or with zero. -/
  | declare {s s' span name type value id} :
      P s value ∨ (∃ span ty, value = (Expr.ofConstant span (zeroOf ty)).retype ty) →
      value.ty.bank?.isSome → s.Extends s' [id] 0 → s'.typeOf id = value.ty → id < s'.locals.size →
      Stands P s s' [id] 0 (.declare span name type (some value) (some id))

variable {σ : Setting} {s s1 : Scope} {e cond : Expr} {whenTrue whenFalse step : Option Stmt}
  {value : Option Expr} {body x : Stmt} {name : String} {added : List LocalId} {jumps : Nat}

namespace Stmt.Stands

variable {P : Scope → Expr → Prop} {s s1 s' : Scope} {added added' : List LocalId}
  {jumps jumps' : Nat} {span : Span} {x : Stmt}

theorem ofNoted (h : s.Noted s1) (h' : s1.Extends s' added jumps)
    (hx : x.Stands P s1 s' added jumps) : x.Stands P s s' added jumps := by
  simpa using behind (.ofNoted h) h' hx

/-- A branch whose condition is known is the part that is taken. -/
theorem branchOf (hcond : P s cond) (hty : cond.ty = .bool) (h : s.Extends s1 added jumps)
    (h' : s1.Extends s' added' jumps') (ht : (whenTrue.getD (.nop span)).Stands P s s1 added jumps)
    (hf : (whenFalse.getD (.nop span)).Stands P s1 s' added' jumps')
    (hany : whenTrue = none → whenFalse ≠ none) :
    (Typing.branchOf span cond whenTrue whenFalse).Stands P s s' (added ++ added')
      (jumps + jumps') := by
  unfold Typing.branchOf
  split
  · exact later h h' ht
  · exact behind h h' hf
  · exact branch hcond hty h h' ht hf hany

end Stmt.Stands

/-! ## Settled statements -/

/-- What typing says of a settled statement, between the scopes before and after it. -/
structure Stmt.Placed (σ : Setting) (s s' : Scope) (added : List LocalId) (jumps : Nat)
    (x : Stmt) : Prop where
  settled : ∀ c : Context, c.Covers σ s' → SettledStmt c x
  allots : x.Allots s.locals.size s'.locals.size
  declares : ∀ v ∈ x.declares, v ∈ added
  jumps : x.freeJumps ≤ jumps
  /-- If no variable is lost, those mentioned are declared before. -/
  supplied : (∀ v ∈ added, v ∈ x.declares) → x.complete = true → ∀ bound : List LocalId,
    (∀ v ∈ s.lookupOrder, v ∈ bound) → x.Supplied bound

namespace Stmt.Placed

variable {σ : Setting} {s s1 s' : Scope} {added added' : List LocalId} {jumps jumps' : Nat}
  {span : Span} {x y : Stmt}

/-- Of two parts that lose no variable together, neither does. -/
theorem split_declares {d e : List LocalId} (h : s.Extends s1 added jumps)
    (h' : s1.Extends s' added' jumps') (hd : ∀ v ∈ d, v ∈ added) (he : ∀ v ∈ e, v ∈ added')
    (hall : ∀ v ∈ added ++ added', v ∈ d ++ e) :
    (∀ v ∈ added, v ∈ d) ∧ ∀ v ∈ added', v ∈ e := by
  constructor
  · intro v hv
    rcases List.mem_append.1 (hall v (by simp [hv])) with hm | hm
    · exact hm
    · exact absurd (h.fresh v hv).2 (Nat.not_lt.2 (h'.fresh v (he v hm)).1)
  · intro v hv
    rcases List.mem_append.1 (hall v (by simp [hv])) with hm | hm
    · exact absurd (h.fresh v (hd v hm)).2 (Nat.not_lt.2 (h'.fresh v hv).1)
    · exact hm

theorem visible (h : s.Extends s1 added jumps) {bound d : List LocalId}
    (hb : ∀ v ∈ s.lookupOrder, v ∈ bound) (hd : ∀ v ∈ added, v ∈ d) :
    ∀ v ∈ s1.lookupOrder, v ∈ bound ++ d := by
  intro v hv
  rcases (h.mem_lookupOrder v).1 hv with hv | hv
  · simp [hb v hv]
  · simp [hd v hv]

/-- The scope goes on without the statement taking part. -/
theorem later (hx : x.Placed σ s s1 added jumps) (h : s.Extends s1 added jumps)
    (h' : s1.Extends s' added' jumps') : x.Placed σ s s' (added ++ added') (jumps + jumps') where
  settled c hc := hx.settled c (hc.earlier h')
  allots := hx.allots.mono (Nat.le_refl _) h'.size_le
  declares v hv := by simp [hx.declares v hv]
  jumps := Nat.le_trans hx.jumps (Nat.le_add_right _ _)
  supplied hall := by
    have hall := split_declares (e := []) h h' hx.declares (by simp) (by simpa using hall)
    exact hx.supplied hall.1

/-- The statement stands behind a part that is dropped. -/
theorem behind (h : s.Extends s1 added jumps) (h' : s1.Extends s' added' jumps')
    (hx : x.Placed σ s1 s' added' jumps') : x.Placed σ s s' (added ++ added') (jumps + jumps') where
  settled := hx.settled
  allots := hx.allots.mono h.size_le (Nat.le_refl _)
  declares v hv := by simp [hx.declares v hv]
  jumps := Nat.le_trans hx.jumps (Nat.le_add_left _ _)
  supplied hall hcomplete bound hb := by
    have hall := split_declares (d := []) h h' (by simp) hx.declares (by simpa using hall)
    exact hx.supplied hall.2 hcomplete bound (by simpa using visible h hb hall.1)

theorem nop (h : s.Extends s' added jumps) : (Stmt.nop span).Placed σ s s' added jumps where
  settled _ _ := .nop
  allots := h.size_le
  declares := by simp
  jumps := by simp
  supplied _ _ _ _ := trivial

theorem expr {value : Expr} (hs : s.Ready) (hvalue : value.SettledIn σ s) :
    (Stmt.expr span value).Placed σ s s [] 0 where
  settled c hc := .expr (hvalue c (hc.fits hs))
  allots := Nat.le_refl _
  declares := by simp
  jumps := by simp
  supplied _ _ bound hb := fun v hv => hb v (hvalue.mentions hv)

/-! ### Lists of statements -/

theorem nil : (Stmt.sequence span []).Placed σ s s [] 0 where
  settled _ _ := .sequence (by simp)
  allots := Nat.le_refl _
  declares := by simp
  jumps := by simp
  supplied _ _ _ _ := trivial

theorem cons {rest : List Stmt} (h : s.Extends s1 added jumps) (h' : s1.Extends s' added' jumps')
    (hx : x.Placed σ s s1 added jumps) (hrest : (sequence span rest).Placed σ s1 s' added' jumps') :
    (Stmt.sequence span (x :: rest)).Placed σ s s' (added ++ added') (jumps + jumps') where
  settled c hc := by
    have hrest := hrest.settled c hc
    cases hrest with
    | sequence hrest =>
      refine .sequence fun y hy => ?_
      rcases List.mem_cons.1 hy with rfl | hy
      · exact hx.settled c (hc.earlier h')
      · exact hrest y hy
  allots := ⟨s1.locals.size, hx.allots, hrest.allots⟩
  declares v hv := by
    simp only [Stmt.declares, Stmt.declaresAll, List.mem_append] at hv ⊢
    exact hv.imp (hx.declares v) (hrest.declares v)
  jumps := Nat.add_le_add hx.jumps hrest.jumps
  supplied hall hcomplete bound hb := by
    simp only [Stmt.complete, Stmt.completeAll, Bool.and_eq_true] at hcomplete
    have hall := split_declares h h' hx.declares hrest.declares hall
    exact ⟨hx.supplied hall.1 hcomplete.1 bound hb,
      hrest.supplied hall.2 hcomplete.2 _ (visible h hb hall.1)⟩

/-- Variables of a block are out of sight behind it. -/
theorem block {body : List Stmt} (h : s.pushBlock.Extends s1 added jumps)
    (hbody : (Stmt.sequence span body).Placed σ s.pushBlock s1 added jumps) :
    (Stmt.block span body added).Placed σ s s1.popBlock.2 [] jumps where
  settled c hc := by
    have hbody := hbody.settled c ⟨hc.setting, hc.kind, hc.types, hc.target⟩
    cases hbody with
    | sequence hbody => exact .block hbody
  allots := ⟨hbody.allots, hbody.declares, h.fresh⟩
  declares := by simp
  jumps := hbody.jumps
  supplied _ hcomplete bound hb := by
    simp only [Stmt.complete, Bool.and_eq_true, List.all_eq_true, List.contains_iff_mem]
      at hcomplete
    refine hbody.supplied (fun v hv => hcomplete.1 v hv) hcomplete.2 bound fun v hv => hb v ?_
    simpa [Scope.lookupOrder, Scope.pushBlock] using hv

/-! ### Branches -/

theorem branch (hs : s.Ready) (hcond : cond.ConditionIn σ s) (h : s.Extends s1 added jumps)
    (h' : s1.Extends s' added' jumps') (ht : (whenTrue.getD (.nop span)).Placed σ s s1 added jumps)
    (hf : (whenFalse.getD (.nop span)).Placed σ s1 s' added' jumps')
    (hany : whenTrue = none → whenFalse ≠ none) :
    (Stmt.branch span cond whenTrue whenFalse).Placed σ s s' (added ++ added')
      (jumps + jumps') where
  settled c hc := by
    refine .branch (hcond c ((hc.earlier (h.trans h')).fits hs)) ?_ ?_ hany
    · rintro x rfl
      exact ht.settled c (hc.earlier h')
    · rintro x rfl
      exact hf.settled c hc
  allots := by
    refine ⟨s1.locals.size, ?_, ?_⟩
    · cases whenTrue <;> exact ht.allots
    · cases whenFalse <;> exact hf.allots
  declares v hv := by
    simp only [Stmt.declares, List.mem_append] at hv ⊢
    refine hv.imp (fun hv => ht.declares v ?_) fun hv => hf.declares v ?_
    · cases whenTrue <;> exact hv
    · cases whenFalse <;> exact hv
  jumps := by
    refine Nat.add_le_add ?_ ?_
    · cases whenTrue <;> exact ht.jumps
    · cases whenFalse <;> exact hf.jumps
  supplied hall hcomplete bound hb := by
    have hdt : (whenTrue.getD (.nop span)).declares = Stmt.declaresOf whenTrue := by
      cases whenTrue <;> rfl
    have hdf : (whenFalse.getD (.nop span)).declares = Stmt.declaresOf whenFalse := by
      cases whenFalse <;> rfl
    simp only [Stmt.complete, Bool.and_eq_true] at hcomplete
    have hall := split_declares h h' ht.declares hf.declares (by rw [hdt, hdf]; exact hall)
    refine ⟨fun v hv => hb v (hcond.settledIn.mentions hv), ?_, ?_⟩
    · have ht := ht.supplied hall.1
      cases whenTrue with
      | none => trivial
      | some x => exact ht hcomplete.1 bound hb
    · have hf := hf.supplied hall.2
      cases whenFalse with
      | none => trivial
      | some x => exact hf hcomplete.2 _ (visible h hb (hdt ▸ hall.1))

/-! ### Loops -/

variable {count : Nat} {body : Stmt}

/-- A statement from a loop that is none after all, without jumps. -/
theorem ofLoop (hbody : body.Placed σ s.enterLoop s1 added 0) :
    body.Placed σ s s1.leaveLoop.2 added 0 where
  __ := hbody
  settled c hc := hbody.settled c ⟨hc.setting, hc.kind, hc.types, hc.target⟩

theorem whileLoop (hs : s.Ready) (hcond : cond.ConditionIn σ s)
    (h : s.enterLoop.Extends s1 added count) (hbody : body.Placed σ s.enterLoop s1 added count) :
    (Stmt.whileLoop span cond body).Placed σ s s1.leaveLoop.2 added 0 where
  __ := hbody
  settled c hc :=
    .whileLoop (hcond c ((hc.earlier h.leaveLoop.1).fits hs))
      (hbody.settled c ⟨hc.setting, hc.kind, hc.types, hc.target⟩)
  jumps := by simp
  supplied hall hcomplete bound hb :=
    ⟨fun v hv => hb v (hcond.settledIn.mentions hv), hbody.supplied hall hcomplete bound hb⟩

theorem doWhile (h : s.enterLoop.Extends s1 added count) (hcond : cond.ConditionIn σ s1.leaveLoop.2)
    (hs : s1.leaveLoop.2.Ready) (hbody : body.Placed σ s.enterLoop s1 added count) :
    (Stmt.doWhile span body cond).Placed σ s s1.leaveLoop.2 added 0 where
  __ := hbody
  settled c hc :=
    .doWhile (hbody.settled c ⟨hc.setting, hc.kind, hc.types, hc.target⟩)
      (hcond c (hc.fits hs))
  jumps := by simp
  supplied hall hcomplete bound hb :=
    ⟨hbody.supplied hall hcomplete bound hb, fun v hv =>
      visible h.leaveLoop.1 hb hall v (hcond.settledIn.mentions hv)⟩

theorem forLoop {cond : Option Expr} {s2 : Scope} (hs : s.Ready)
    (hcond : ∀ e ∈ cond, e.ConditionIn σ s) (h : s.enterLoop.Extends s1 [] 0)
    (h' : s1.Extends s2 added count) (hstep : (step.getD (.nop span)).Placed σ s.enterLoop s1 [] 0)
    (hbody : body.Placed σ s1 s2 added count) :
    (Stmt.forLoop span none cond step body).Placed σ s s2.leaveLoop.2 added 0 where
  settled c hc := by
    have hc2 : c.Covers σ s2 := ⟨hc.setting, hc.kind, hc.types, hc.target⟩
    have hc0 : c.Covers σ s.enterLoop := hc2.earlier (h.trans h')
    refine .forLoop (fun e he => hcond e he c ?_) ?_ (hbody.settled c hc2)
    · have hfits := hc0.fits hs.enterLoop
      exact ⟨hfits.setting, hfits.kind, hfits.types, hfits.target⟩
    · rintro x rfl
      exact hstep.settled c (hc2.earlier h')
  allots := by
    refine ⟨s.locals.size, s1.locals.size, Nat.le_refl _, ?_, hbody.allots⟩
    cases step <;> exact hstep.allots
  declares v hv := by
    have hnone : Stmt.declaresOf step = [] := by
      have hd := hstep.declares
      refine List.eq_nil_iff_forall_not_mem.2 fun v hv => ?_
      cases step with
      | none => simp at hv
      | some x => simpa using hd v hv
    simp only [Stmt.declares, hnone, List.append_nil, Stmt.declaresOf, List.nil_append] at hv
    exact hbody.declares v hv
  jumps := by
    have hj := hstep.jumps
    cases step with
    | none => simp
    | some x => simpa using hj
  supplied hall hcomplete bound hb := by
    have hnone : ∀ v ∈ Stmt.declaresOf step, v ∈ ([] : List LocalId) := by
      have hd := hstep.declares
      cases step with
      | none => simp
      | some x => exact hd
    simp only [Stmt.complete, Stmt.completeOf, Bool.true_and, Bool.and_eq_true] at hcomplete
    have hvisible : ∀ v ∈ s.enterLoop.lookupOrder, v ∈ bound := hb
    have hall : ∀ v ∈ added, v ∈ body.declares := by
      intro v hv
      have hv := hall v hv
      simp only [Stmt.declares, Stmt.declaresOf, List.nil_append, List.mem_append] at hv
      exact hv.resolve_right fun hv => by simpa using hnone v hv
    refine ⟨trivial, fun e he v hv => ?_, ?_, ?_⟩
    · simpa using hb v ((hcond e he).settledIn.mentions hv)
    · have hv := visible h hvisible (d := []) (by simp)
      simpa using hbody.supplied hall hcomplete.2 bound (by simpa using hv)
    · have hstep := hstep.supplied (by simp)
      cases step with
      | none => trivial
      | some x =>
        exact (hstep hcomplete.1 bound hvisible).mono fun v hv => by simp [hv]

/-! ### Ends -/

theorem jump {kind : JumpKind} (hlocals : s'.locals = s.locals) :
    (Stmt.jump span kind).Placed σ s s' [] 1 where
  settled _ _ := .jump
  allots := by simp [hlocals]
  declares := by simp
  jumps := by simp
  supplied _ _ _ _ := trivial

theorem ret (hs : s.Ready) (hvalue : ∀ e ∈ value, e.SettledIn σ s) (h : s.Extends s' [] 0)
    (hlocals : s'.locals = s.locals) :
    (Stmt.ret span (value.map Expr.markTail)).Placed σ s s' [] 0 where
  settled c hc := .ret fun e he => hvalue e he c ((hc.earlier h).fits hs)
  allots := by simp [hlocals]
  declares := by simp
  jumps := by simp
  supplied _ _ bound hb e he v hv := by
    obtain ⟨e, hmem, rfl⟩ := Option.map_eq_some_iff.1 he
    exact hb v ((hvalue e hmem).mentions (Expr.mentions_markTail hv))

theorem declare {type : String} {value : Expr} {id : LocalId} (hs : s.Ready)
    (hvalue : value.SettledIn σ s) (hbank : value.ty.bank?.isSome) (h : s.Extends s' [id] 0)
    (hty : s'.typeOf id = value.ty) (hid : id < s'.locals.size) :
    (Stmt.declare span name type (some value) (some id)).Placed σ s s' [id] 0 where
  settled c hc := by
    obtain ⟨bank, hbank⟩ := Option.isSome_iff_exists.1 hbank
    refine .declare (hvalue c ((hc.earlier h).fits hs)) hbank ?_
    rw [hc.types id hid, hty, hbank]
  allots := ⟨h.size_le, by simpa using h.fresh⟩
  declares := by simp
  jumps := by simp
  supplied _ _ bound hb e he v hv := by
    obtain rfl := Option.some.inj he
    exact hb v (hvalue.mentions hv)

end Stmt.Placed

/-- Statements of settled expressions are settled. -/
theorem Stmt.Stands.placed {s' : Scope} (h : x.Stands (Expr.SettledIn σ) s s' added jumps)
    (hs : s.Ready) : x.Placed σ s s' added jumps := by
  induction h with
  | nop h => exact .nop h
  | expr hvalue => exact .expr hs hvalue
  | later h h' _ ih => exact (ih hs).later h h'
  | behind h h' _ ih => exact .behind h h' (ih (h.ready hs))
  | nil => exact .nil
  | cons h h' _ _ ih ih' => exact .cons h h' (ih hs) (ih' (h.ready hs))
  | block h _ ih => exact .block h (ih hs.pushBlock)
  | branch hcond hty h h' _ _ hany iht ihf =>
    exact .branch hs (hcond.condition hty) h h' (iht hs) (ihf (h.ready hs)) hany
  | ofLoop _ ih => exact (ih hs.enterLoop).ofLoop
  | whileLoop hcond hty h _ ih => exact .whileLoop hs (hcond.condition hty) h (ih hs.enterLoop)
  | doWhile h hcond hty _ ih =>
    exact .doWhile h (hcond.condition hty) (h.leaveLoop.1.ready hs) (ih hs.enterLoop)
  | forLoop hcond h h' _ _ ihstep ihbody =>
    exact .forLoop hs (fun e he => (hcond e he).1.condition (hcond e he).2) h h'
      (ihstep hs.enterLoop) (ihbody (h.ready hs.enterLoop))
  | jump hlocals => exact .jump hlocals
  | ret hvalue h hlocals => exact .ret hs hvalue h hlocals
  | declare hvalue hbank h hty hid =>
    rcases hvalue with hvalue | ⟨span, ty, rfl⟩
    · exact .declare hs hvalue hbank h hty hid
    · exact .declare hs (fun _ _ => .constant rfl (by simpa using hbank)) hbank h hty hid

/-! ## Typing statements -/

namespace Typing

variable {σ : Setting} {P : Scope → Expr → Prop} {s : Scope} {span : Span}

/-- A step that gives a statement wherever it stands. -/
def Places (σ : Setting) (P : Scope → Expr → Prop) (x : Typing Stmt) : Prop :=
  ∀ s : Scope, Advances σ s x fun y s' added jumps => y.Stands P s s' added jumps

def PlacesAll (σ : Setting) (P : Scope → Expr → Prop) (span : Span) (x : Typing (List Stmt)) :
    Prop :=
  ∀ s : Scope, Advances σ s x fun body s' added jumps =>
    (Stmt.sequence span body).Stands P s s' added jumps

theorem settleBranch_places (span : Span) {x : Option Stmt} (h : ∀ y ∈ x, Places σ P y.settle) :
    Advances σ s (settleBranch x) fun y s' added jumps =>
      (y.getD (.nop span)).Stands P s s' added jumps ∧ (y = none → x = none) := by
  cases x with
  | none =>
    rw [settleBranch]
    exact .pure ⟨.nop (.refl s), fun _ => rfl⟩
  | some x =>
    rw [settleBranch]
    refine .bind (h x rfl s) fun y s1 added jumps hext hy => .pure ?_
    simpa using hy

theorem settleSequence_places (span : Span) {body : List Stmt}
    (h : ∀ x ∈ body, Places σ P x.settle) : PlacesAll σ P span (settleSequence body) := by
  induction body with
  | nil =>
    intro s
    rw [settleSequence]
    exact .pure .nil
  | cons x rest ih =>
    intro s
    rw [settleSequence]
    refine .bind (h x (by simp) s) fun y s1 added jumps hext hy =>
      .bind (ih (fun x hx => h x (by simp [hx])) s1) fun rest' s2 added' jumps' hext' hrest =>
        .pure ?_
    simpa using .cons hext hext' hy hrest

theorem settleBlock_places (span : Span) {body : List Stmt}
    (h : ∀ x ∈ body, Places σ P x.settle) : PlacesAll σ P span (settleBlock body) := by
  induction body with
  | nil =>
    intro s
    rw [settleBlock]
    exact .pure .nil
  | cons x rest ih =>
    intro s
    rw [settleBlock]
    -- A rejected statement leaves what it added to the scope.
    have hdrop : Advances σ s (orDrop x.settle) fun y s' added jumps =>
        ∀ x ∈ y, x.Stands P s s' added jumps := by
      refine .tryCatch ?_ fun r s1 added jumps hext => ?_
      · exact .bind (h x (by simp) s) fun y s1 added jumps _ hy => .pure (by simpa using hy)
      · exact .after .record fun _ _ _ _ => .pure (by simp)
    refine .bind hdrop fun y s1 added jumps hext hy =>
      .bind (ih (fun x hx => h x (by simp [hx])) s1) fun rest' s2 added' jumps' hext' hrest =>
        .pure ?_
    cases y with
    | none => simpa using .behind hext hext' hrest
    | some y => simpa using .cons hext hext' (hy y rfl) hrest

theorem warnIfEmpty_ensures : Ensures σ s (warnIfEmpty span body) fun _ => True := by
  unfold warnIfEmpty
  split
  · exact .warn
  · exact .pure trivial

theorem Advances.behind {α : Type} {x : Typing α} {f : α → Typing Stmt} {R : α → Prop}
    (hx : Ensures σ s x R)
    (hf : ∀ a s1, s.Noted s1 → R a →
      Advances σ s1 (f a) fun y s' added jumps => y.Stands P s1 s' added jumps) :
    Advances σ s (x >>= f) fun y s' added jumps => y.Stands P s s' added jumps :=
  .after hx fun a s1 hn ha => (hf a s1 hn ha).mono fun _ _ _ _ hext hy => hy.ofNoted hn hext

/-- A statement is not changed by what is said about it. -/
theorem Advances.noting {s' : Scope} {y : Stmt} {w : Typing Unit}
    (hw : Ensures σ s' w fun _ => True) (h : s.Extends s' added jumps)
    (hy : y.Stands P s s' added jumps) :
    Advances σ s' (w >>= fun _ => Pure.pure y) fun y s1 added' jumps' =>
      y.Stands P s s1 (added ++ added') (jumps + jumps') :=
  .after hw fun _ _ hn _ => .pure (by simpa using Stmt.Stands.later h (.ofNoted hn) hy)

theorem Advances.done {s' : Scope} {y : Stmt} (hy : y.Stands P s s' added jumps) :
    Advances σ s' (Pure.pure y) fun y s1 added' jumps' =>
      y.Stands P s s1 (added ++ added') (jumps + jumps') :=
  .pure (by simpa using hy)

theorem whileOf_places {count : Nat} (hcond : P s cond) (hty : cond.ty = .bool)
    (h : s.enterLoop.Extends s1 added count) (hbody : body.Stands P s.enterLoop s1 added count) :
    Advances σ s1.leaveLoop.2 (whileOf span cond body) fun y s' added' jumps' =>
      y.Stands P s s' (added ++ added') (0 + jumps') := by
  have hloop : (Stmt.whileLoop span cond body).Stands P s s1.leaveLoop.2 added 0 :=
    .whileLoop hcond hty h hbody
  unfold whileOf
  split
  · exact .done (.nop h.leaveLoop.1)
  · exact .noting warnIfEmpty_ensures h.leaveLoop.1 hloop
  · exact .done hloop

theorem doWhileOf_places {s2 : Scope} {count : Nat} (h : s.enterLoop.Extends s1 added count)
    (hn : s1.leaveLoop.2.Noted s2) (hcond : P s1.leaveLoop.2 cond) (hty : cond.ty = .bool)
    (hbody : body.Stands P s.enterLoop s1 added count) :
    Advances σ s2 (doWhileOf span body count cond) fun y s' added' jumps' =>
      y.Stands P s s' (added ++ added') (0 + jumps') := by
  have hleave := h.leaveLoop.1
  have hloop : (Stmt.doWhile span body cond).Stands P s s2 added 0 := by
    simpa using Stmt.Stands.later hleave (.ofNoted hn) (.doWhile h hcond hty hbody)
  have hext : s.Extends s2 added 0 := by simpa using hleave.trans (.ofNoted hn)
  unfold doWhileOf
  split
  · split
    next hcount =>
      obtain rfl : count = 0 := by simpa using hcount
      exact .done (by simpa using Stmt.Stands.later hleave (.ofNoted hn) (.ofLoop hbody))
    next => exact .done hloop
  · exact .noting warnIfEmpty_ensures hext hloop
  · exact .done hloop

/-- The step of a for loop adds nothing to the scope. -/
def PlacesStep (σ : Setting) (P : Scope → Expr → Prop) (span : Span) (x : Typing (Option Stmt)) :
    Prop :=
  ∀ s : Scope, Advances σ s x fun y s' added jumps =>
    added = [] ∧ jumps = 0 ∧ (y.getD (.nop span)).Stands P s s' [] 0

/-! ### Expressions of statements -/

section Lasting

variable (hP : Lasting σ false P)

include hP

theorem settleCondition_bears {cond : Option Expr} (h : ∀ e ∈ cond, Written e) :
    Ensures σ s (settleCondition cond) fun cond' => ∀ e ∈ cond', P s e ∧ e.ty = .bool := by
  unfold settleCondition
  split
  · exact .pure (by simp)
  next e =>
    exact .bind ((h e rfl).settleBool_bears hP) fun e' he' => .pure (by simpa using he')

theorem forOf_places {cond : Option Expr} {step : Typing (Option Stmt)} {body : Typing Stmt}
    (hcond : ∀ e ∈ cond, Written e) (hstep : PlacesStep σ P span step)
    (hbody : Places σ P body) : Places σ P (forOf span cond step body) := by
  intro s0
  unfold forOf
  refine .behind (settleCondition_bears hP hcond) fun cond s hn hcond => ?_
  have hcond : ∀ e ∈ cond, P s e ∧ e.ty = .bool :=
    fun e he => ⟨hP.noted hn (hcond e he).1, (hcond e he).2⟩
  have hparts : Advances σ s.enterLoop (do
      let step ← step
      let body ← body
      return (step, body)) fun p s' added jumps => ∃ s1, s.enterLoop.Extends s1 [] 0 ∧
        s1.Extends s' added jumps ∧ (p.1.getD (.nop span)).Stands P s.enterLoop s1 [] 0 ∧
        p.2.Stands P s1 s' added jumps := by
    refine .bind (hstep s.enterLoop) ?_
    rintro y s1 _ _ hext ⟨rfl, rfl, hy⟩
    refine .bind (hbody s1) fun b s2 added jumps hext' hb => .pure ?_
    exact ⟨s1, hext, by simpa using hext', hy, by simpa using hb⟩
  refine .bind hparts.inLoop ?_
  rintro ⟨⟨step', body'⟩, count⟩ _ added _ - ⟨rfl, s2, rfl, hext, s1, hext', hext'', hy, hb⟩
  have hleave := hext.leaveLoop.1
  have hloop (cond' : Option Expr) (hcond' : ∀ e ∈ cond', P s e ∧ e.ty = .bool) :
      (Stmt.forLoop span none cond' step' body').Stands P s s2.leaveLoop.2 added 0 :=
    .forLoop hcond' hext' hext'' hy hb
  simp only
  split
  · exact .done (.nop hleave)
  · exact .noting warnIfEmpty_ensures hleave (hloop none (by simp))
  · split
    · exact .noting warnIfEmpty_ensures hleave (hloop cond hcond)
    · exact .done (hloop cond hcond)

theorem settleReturn_places (h : ∀ e ∈ value, Written e) :
    Places σ P (settleReturn span value) := by
  have hend {s : Scope} (value : Option Expr) (hvalue : ∀ e ∈ value, P s e) :
      Advances σ s (do
        noteReturn span (returnedTypes (value.map Expr.markTail))
        return Stmt.ret span (value.map Expr.markTail)) fun y s' added jumps =>
          y.Stands P s s' added jumps := by
    refine .bind noteReturn_advances ?_
    rintro _ s' _ _ hext ⟨rfl, rfl, hlocals⟩
    exact .pure (.ret hvalue hext hlocals)
  intro s
  unfold settleReturn
  cases value with
  | none => exact hend none (by simp)
  | some e =>
    exact .behind ((h e rfl).settle_bears hP nofun) fun e' s1 hn he' =>
      hend (some e') (by simpa using hP.noted hn he')

/-- A declaration whose type is known and whose value is typed. -/
theorem declared_places {ty : Ty} (hbank : ty.bank?.isSome) (hty : e.ty = ty) (hn : s.Noted s1)
    (he : P s e ∨ ∃ span ty, e = (Expr.ofConstant span (zeroOf ty)).retype ty) :
    Advances σ s1 (do
      let id ← declareLocal span name ty
      return Stmt.declare span name (← describe ty) (some e) (some id)) fun y s' added jumps =>
        y.Stands P s1 s' added jumps := by
  refine .bind declareLocal_advances ?_
  rintro id s2 _ _ hext ⟨-, rfl, rfl, htype, hid⟩
  refine .after .describe fun text s3 hn' _ => .pure ?_
  have hd : (Stmt.declare span name text (some e) (some id)).Stands P s1 s2 [id] 0 :=
    .declare (he.imp_left (hP.noted hn)) (hty ▸ hbank) hext (htype.trans hty.symm) hid
  simpa using .later hext (.ofNoted hn') hd

theorem settleDeclaration_places {type : String} (h : ∀ e ∈ value, Written e) :
    Places σ P (settleDeclaration span name type value) := by
  intro s0
  unfold settleDeclaration
  refine .behind .typeNamed fun ty s _ _ => .ite (fun _ => ?_) fun hsome => ?_
  · exact .behind .describe fun _ s1 _ _ => .bind (P := fun _ _ _ _ => False) .throw
      fun _ _ _ _ _ h => h.elim
  · have hbank : ty.bank?.isSome := by
      simpa [Option.isSome_iff_ne_none] using hsome
    cases value with
    | none => exact declared_places hP hbank (by simp) (.refl s) (.inr ⟨span, ty, rfl⟩)
    | some e =>
      refine .behind ((h e rfl).settle_bears hP nofun) fun x s1 hn hx => ?_
      exact .behind (convert_bears (hP.pliant s1) (n := 0) (hP.noted hn hx) ty false)
        fun e' s2 hn2 he' => declared_places hP hbank he'.2.1 hn2 (.inl he'.1)

end Lasting

end Typing

/-! ## All statements -/

section Statements

variable {σ : Setting} {P : Scope → Expr → Prop} {s : Scope} {span : Span}
  (hP : Lasting σ false P)

include hP

/-- Expressions in order add nothing to the scope. -/
theorem WrittenList.settle_places (h : WrittenList x) :
    Advances σ s x.settle fun y s' added jumps =>
      added = [] ∧ jumps = 0 ∧ y.Stands P s s' [] 0 := by
  have hexpr (span : Span) (value : Expr) (hvalue : Written value) {s : Scope} :
      Advances σ s (Stmt.expr span value).settle fun y s' added jumps =>
        added = [] ∧ jumps = 0 ∧ y.Stands P s s' [] 0 := by
    rw [Stmt.settle]
    refine .after (hvalue.settle_bears hP nofun) fun e s1 hn he => .pure ⟨rfl, rfl, ?_⟩
    exact .later (.refl s) (.ofNoted hn) (.expr he)
  cases h with
  | one hvalue => exact hexpr _ _ hvalue
  | @many span body hbody =>
    rw [Stmt.settle]
    suffices hlist : Advances σ s (settleSequence body) fun body' s' added jumps =>
        added = [] ∧ jumps = 0 ∧ (Stmt.sequence span body').Stands P s s' [] 0 by
      refine .bind hlist ?_
      rintro body' s' _ _ - ⟨rfl, rfl, hy⟩
      exact .pure ⟨rfl, rfl, hy⟩
    induction body generalizing s with
    | nil =>
      rw [settleSequence]
      exact .pure ⟨rfl, rfl, .nil⟩
    | cons x rest ih =>
      obtain ⟨span', value, rfl, hvalue⟩ := hbody x (by simp)
      rw [settleSequence]
      refine .bind (hexpr _ _ hvalue) ?_
      rintro y s1 _ _ hext ⟨rfl, rfl, hy⟩
      refine .bind (ih fun x hx => hbody x (by simp [hx])) ?_
      rintro rest' s2 _ _ hext' ⟨rfl, rfl, hrest⟩
      exact .pure ⟨rfl, rfl, .cons hext hext' hy hrest⟩

omit hP in
theorem Stmt.settle_sequence_places {body : List Stmt} (h : ∀ x ∈ body, Places σ P x.settle) :
    Places σ P (Stmt.sequence span body).settle := by
  intro s
  rw [Stmt.settle]
  refine .bind (settleSequence_places span h s) fun body s1 added jumps _ hbody => .pure ?_
  simpa using hbody

omit hP in
theorem Stmt.settle_block_places {body : List Stmt} {locals : List LocalId}
    (h : ∀ x ∈ body, Places σ P x.settle) : Places σ P (Stmt.block span body locals).settle := by
  intro s
  rw [Stmt.settle]
  refine .bind (settleBlock_places span h s.pushBlock).inBlock ?_
  rintro ⟨body, locals⟩ s' _ jumps - ⟨rfl, s1, rfl, hext, hbody⟩
  exact .pure (by simpa using .block hext hbody)

theorem Stmt.settle_branch_places (hcond : Written cond) (ht : ∀ x ∈ whenTrue, Places σ P x.settle)
    (hf : ∀ x ∈ whenFalse, Places σ P x.settle) :
    Places σ P (Stmt.branch span cond whenTrue whenFalse).settle := by
  intro s
  by_cases hnone : whenTrue = none ∧ whenFalse = none
  · obtain ⟨rfl, rfl⟩ := hnone
    rw [Stmt.settle]
    exact .pure (.nop (.refl s))
  rw [Stmt.settle.eq_6 _ _ _ _ fun ht hf => hnone ⟨ht, hf⟩]
  refine .behind (hcond.settleBool_bears hP) fun cond' s1 hn hcond' =>
    .bind (settleBranch_places span ht) fun x s2 added jumps hext hx =>
      .bind (settleBranch_places span hf) fun y s3 added' jumps' hext' hy => .pure ?_
  have hany : x = none → y ≠ none := fun hxn hyn => hnone ⟨hx.2 hxn, hy.2 hyn⟩
  simpa using .branchOf (hP.noted hn hcond'.1) hcond'.2 hext hext' hx.1 hy.1 hany

theorem Stmt.settle_whileLoop_places (hcond : Written cond) (h : Places σ P body.settle) :
    Places σ P (Stmt.whileLoop span cond body).settle := by
  intro s
  rw [Stmt.settle]
  refine .behind (hcond.settleBool_bears hP) fun cond' s1 hn hcond' =>
    .bind (h s1.enterLoop).inLoop ?_
  rintro ⟨body', count⟩ _ added _ - ⟨rfl, s2, rfl, hext, hbody⟩
  exact whileOf_places (hP.noted hn hcond'.1) hcond'.2 hext hbody

theorem Stmt.settle_doWhile_places (hcond : Written cond) (h : Places σ P body.settle) :
    Places σ P (Stmt.doWhile span body cond).settle := by
  intro s
  rw [Stmt.settle]
  refine .bind (h s.enterLoop).inLoop ?_
  rintro ⟨body', count⟩ _ added _ - ⟨rfl, s1, rfl, hext, hbody⟩
  refine .after (hcond.settleBool_bears hP) fun cond' s2 hn hcond' => ?_
  exact doWhileOf_places hext hn hcond'.1 hcond'.2 hbody

theorem settleStep_places (h : ∀ x ∈ step, WrittenList x) :
    PlacesStep σ P span (settleBranch step) := by
  intro s
  cases step with
  | none =>
    rw [settleBranch]
    exact .pure ⟨rfl, rfl, .nop (.refl s)⟩
  | some x =>
    rw [settleBranch]
    refine .bind ((h x rfl).settle_places hP) ?_
    rintro y s1 _ _ - ⟨rfl, rfl, hy⟩
    exact .pure ⟨rfl, rfl, hy⟩

theorem Stmt.settle_forLoop_places {first : Option Stmt} {cond : Option Expr}
    (hfirst : ∀ x ∈ first, Places σ P x.settle) (hcond : ∀ e ∈ cond, Written e)
    (hstep : ∀ x ∈ step, WrittenList x) (hbody : Places σ P body.settle) :
    Places σ P (Stmt.forLoop span first cond step body).settle := by
  have hloop : Places σ P (forOf span cond (settleBranch step) body.settle) :=
    forOf_places hP hcond (settleStep_places hP hstep) hbody
  intro s
  cases first with
  | none =>
    rw [Stmt.settle]
    exact hloop s
  | some first =>
    rw [Stmt.settle]
    -- An empty loop is left out of the block that the first part is in.
    have hparts : Advances σ s.pushBlock (do
        let first ← first.settle
        let loop ← forOf span cond (settleBranch step) body.settle
        return (first, loop)) fun p s' added jumps =>
          (Stmt.sequence span (if p.2.isEmpty then [p.1] else [p.1, p.2])).Stands P s.pushBlock
            s' added jumps := by
      refine .bind (hfirst first rfl s.pushBlock) fun first' s1 added jumps hext hfirst' =>
        .bind (hloop s1) fun loop s2 added' jumps' hext' hloop' => .pure ?_
      simp only [List.append_nil, Nat.add_zero]
      split
      · simpa using Stands.cons (hext.trans hext') (.refl s2) (.later hext hext' hfirst') .nil
      · refine .cons hext hext' hfirst' ?_
        simpa using Stands.cons hext' (.refl s2) hloop' .nil
    refine .bind hparts.inBlock ?_
    rintro ⟨⟨first', loop⟩, locals⟩ _ _ jumps - ⟨rfl, s1, rfl, hext, hblock⟩
    exact .pure (by simpa using .block hext hblock)

/-- Typing a statement gives one that stands where it is, unless it is rejected. -/
theorem WrittenStmt.settle_places (h : WrittenStmt x) : Places σ P x.settle := by
  induction h with
  | nop =>
    intro s
    rw [Stmt.settle]
    exact .pure (.nop (.refl s))
  | expr hvalue =>
    intro s
    refine (WrittenList.one hvalue).settle_places hP |>.mono ?_
    rintro y s' _ _ - ⟨rfl, rfl, hy⟩
    exact hy
  | sequence _ ih => exact Stmt.settle_sequence_places ih
  | block _ ih => exact Stmt.settle_block_places ih
  | branch hcond _ _ iht ihf => exact Stmt.settle_branch_places hP hcond iht ihf
  | whileLoop hcond _ ih => exact Stmt.settle_whileLoop_places hP hcond ih
  | doWhile _ hcond ih => exact Stmt.settle_doWhile_places hP hcond ih
  | forLoop _ hcond hstep _ ihfirst ihbody =>
    exact Stmt.settle_forLoop_places hP ihfirst hcond hstep ihbody
  | jump =>
    intro s
    rw [Stmt.settle]
    refine .bind noteJump_advances ?_
    rintro _ s' _ _ - ⟨rfl, rfl, hlocals⟩
    exact .pure (.jump hlocals)
  | ret hvalue =>
    rw [Stmt.settle]
    exact settleReturn_places hP hvalue
  | declare hvalue =>
    rw [Stmt.settle]
    exact settleDeclaration_places hP hvalue

end Statements

end ActorScript
