import ActorScript.Proofs.Dialect.Expressions

/-! # Statements in both dialects

A rejected statement of a block is recorded as an error, so a body that was typed without errors
has lost nothing and is typed to the same body in the lax dialect.
-/

namespace ActorScript

open Typing

variable {σ : Setting} {strict : Bool} {span : Span}

namespace Typing

abbrev EchoesStmt (σ : Setting) (strict : Bool) (x y : Typing Stmt) : Prop :=
  Follows σ strict Stmt.hush x y

theorem option_cases {α γ : Type} {view : α → γ} {o o' : Option α} (h : o.map view = o'.map view) :
    o = none ∧ o' = none ∨ ∃ a a', o = some a ∧ o' = some a' ∧ view a = view a' := by
  cases o <;> cases o' <;> simp_all

/-! ## Changes of the scope -/

/-- A step that asks for a new scope, which has nothing to do with diagnostics. -/
theorem update_follows {α γ : Type} {view : α → γ} {x : Typing α}
    (next : Scope → Except Rejection (α × Scope))
    (hx : ∀ σ s, x.runFrom σ s = match next s with
      | .ok (a, t) => (.ok a, t)
      | .error r => (.error r, s))
    (hcore : ∀ s ds, next (s.withDiagnostics ds) =
      (next s).map fun p => (p.1, p.2.withDiagnostics ds))
    (hkeep : ∀ s a t, next s = .ok (a, t) → t.diagnostics = s.diagnostics) :
    Follows σ strict view x x where
  records s := by
    refine ⟨[], ?_, by simp⟩
    rw [hx, List.append_nil]
    rcases hnext : next s with r | ⟨a, t⟩
    · rfl
    · exact hkeep s a t hnext
  follows s ds a t hds hrun _ := by
    rw [hx] at hrun
    rcases hnext : next s with r | ⟨a', t'⟩ <;> rw [hnext] at hrun <;> cases hrun
    refine ⟨a, ds, ?_, rfl, (hkeep s a t hnext).symm ▸ hds⟩
    rw [hx, hcore, hnext]
    rfl

theorem declareLocal_follows {name : String} {ty : Ty} :
    Same σ strict id (declareLocal span name ty) := by
  refine update_follows (fun s => (s.declareLocal name ty).mapError ({ fault := ·, span }))
    (fun σ s => ?_) (fun s ds => ?_) fun s a t h => ?_
  · unfold declareLocal
    rw [runFrom_bind]
    dsimp only [runFrom_get]
    rcases s.declareLocal name ty with fault | ⟨id, t⟩ <;> rfl
  · have hname : (s.withDiagnostics ds).nameOf = s.nameOf := rfl
    have hblocks : (s.withDiagnostics ds).blocks = s.blocks := rfl
    unfold Scope.declareLocal
    rw [hname, hblocks]
    cases s.blocks with
    | nil => rfl
    | cons block outer =>
      dsimp only
      split <;> rfl
  · unfold Scope.declareLocal at h
    split at h
    · cases h
    · split at h <;> cases h
      rfl

theorem noteReturn_follows {types : List Ty} : Same σ strict id (noteReturn span types) := by
  refine update_follows (fun s => (s.noteReturn? types).elim (.error { fault := .returnTypes, span })
      fun t => .ok ((), t))
    (fun σ s => ?_) (fun s ds => ?_) fun s a t h => ?_
  · unfold noteReturn
    rw [runFrom_bind]
    dsimp only [runFrom_get]
    cases s.noteReturn? types <;> rfl
  · unfold Scope.noteReturn?
    simp only [Scope.withDiagnostics]
    cases Scope.joinReturn s.returnTypes types <;> rfl
  · unfold Scope.noteReturn? at h
    cases hjoin : Scope.joinReturn s.returnTypes types <;> rw [hjoin] at h <;> cases h
    rfl

theorem noteJump_follows {keyword : String} : Same σ strict id (noteJump span keyword) := by
  refine update_follows (fun s => s.noteJump?.elim
      (.error { fault := .jumpOutsideLoop keyword, span }) fun t => .ok ((), t))
    (fun σ s => ?_) (fun s ds => ?_) fun s a t h => ?_
  · unfold noteJump
    rw [runFrom_bind]
    dsimp only [runFrom_get]
    cases s.noteJump? <;> rfl
  · unfold Scope.noteJump?
    simp only [Scope.withDiagnostics]
    cases s.loops <;> rfl
  · unfold Scope.noteJump? at h
    cases hl : s.loops <;> rw [hl] at h <;> cases h
    rfl

theorem orDrop_follows {x y : Typing Stmt} (h : EchoesStmt σ strict x y) :
    Follows σ strict (Option.map Stmt.hush) (orDrop x) (orDrop y) := by
  unfold orDrop
  refine .tryCatch ?_ (fun r => ?_) fun r s a t hrun hclean => ?_
  · rw [map_eq_pure_bind, map_eq_pure_bind]
    exact .bind h fun _ _ hs => .pure (congrArg some hs)
  · exact (Records.record (by simp [Rejection.toDiagnostic])).bind fun _ => .pure
  · cases hrun
    exact hclean r.toDiagnostic (List.mem_append_right _ (List.mem_singleton.2 rfl)) rfl

/-! ## Rules -/

theorem settleReturn_echoes {value : Option Expr} :
    Same σ strict Stmt.hush (settleReturn span value) := by
  have hreturned {v v' : Option Expr} (hv : v.map Expr.hush = v'.map Expr.hush) :
      EchoesStmt σ strict
        (do
          noteReturn span (returnedTypes v)
          return .ret span v)
        (do
          noteReturn span (returnedTypes v')
          return .ret span v') := by
    have htypes : returnedTypes v' = returnedTypes v := by
      rcases option_cases hv with ⟨rfl, rfl⟩ | ⟨e, e', rfl, rfl, he : e.Alike e'⟩
      · rfl
      · rw [returnedTypes, returnedTypes, he.ty]
    rw [htypes]
    exact .bind noteReturn_follows fun _ _ _ => .pure (congrArg (Stmt.ret span) hv)
  unfold settleReturn
  dsimp only
  split
  · refine .bind (Expr.settle_echoes _) fun e e' (he : e.Alike e') => ?_
    rw [pure_bind, pure_bind]
    exact hreturned (congrArg some he.markTail)
  · rw [pure_bind]
    exact hreturned rfl

theorem settleDeclaration_echoes {name type : String} {value : Option Expr} :
    Same σ strict Stmt.hush (settleDeclaration span name type value) := by
  unfold settleDeclaration
  refine .bind .typeNamed fun ty _ hty => ?_
  cases hty
  have hdeclared {v v' : Expr} (hv : v.hush = v'.hush) :
      EchoesStmt σ strict
        (do
          let id ← declareLocal span name ty
          return .declare span name (← describe ty) (some v) (some id))
        (do
          let id ← declareLocal span name ty
          return .declare span name (← describe ty) (some v') (some id)) := by
    refine .bind declareLocal_follows fun id _ hid => .bind .describe fun text _ htext => .pure ?_
    cases hid
    cases htext
    exact congrArg (fun v => Stmt.declare span name text (some v) (some id)) hv
  dsimp only
  split
  · exact .bind .describe fun _ _ _ => .throw
  cases value with
  | none => exact .bind (.pure rfl) fun _ _ => hdeclared
  | some e => exact .bind e.settle_echoes fun _ _ he => .bind (convert_echoes he) fun _ _ => hdeclared

theorem settleCondition_follows {cond : Option Expr} :
    Same σ strict (Option.map Expr.hush) (settleCondition cond) := by
  cases cond with
  | none => exact .pure rfl
  | some cond => exact .bind cond.settleBool_echoes fun _ _ h => .pure (congrArg some h)

theorem warnIfEmpty_follows {body body' : Stmt} (h : body.Alike body') :
    Follows σ strict id (warnIfEmpty span body) (warnIfEmpty span body') := by
  unfold warnIfEmpty
  rw [h.isEmpty]
  split
  · exact .warn
  · exact .pure rfl

theorem branchOf_alike {cond cond' : Expr} {t t' f f' : Option Stmt} (hc : cond.Alike cond')
    (ht : t.map Stmt.hush = t'.map Stmt.hush) (hf : f.map Stmt.hush = f'.map Stmt.hush) :
    (branchOf span cond t f).Alike (branchOf span cond' t' f') := by
  have hpart {o o' : Option Stmt} (ho : o.map Stmt.hush = o'.map Stmt.hush) :
      (o.getD (.nop span)).Alike (o'.getD (.nop span)) := by
    cases o <;> cases o' <;> simp_all [Stmt.Alike]
  unfold branchOf
  rw [hc.known?]
  split
  · exact hpart ht
  · exact hpart hf
  · rw [Stmt.Alike, Stmt.hush, Stmt.hush, Stmt.hushOption_eq_map, Stmt.hushOption_eq_map,
      Stmt.hushOption_eq_map, Stmt.hushOption_eq_map, hc, ht, hf]

section Loops

variable {cond cond' : Expr} {body body' : Stmt}

theorem whileOf_echoes (hc : cond.Alike cond') (hb : body.Alike body') :
    EchoesStmt σ strict (whileOf span cond body) (whileOf span cond' body') := by
  have hnode : (Stmt.whileLoop span cond body).Alike (.whileLoop span cond' body') := by
    rw [Stmt.Alike, Stmt.hush, Stmt.hush, hc, hb]
  unfold whileOf
  rw [hc.known?]
  split
  · exact .pure rfl
  · exact .bind (warnIfEmpty_follows hb) fun _ _ _ => .pure hnode
  · exact .pure hnode

theorem doWhileOf_echoes {jumps : Nat} (hc : cond.Alike cond') (hb : body.Alike body') :
    EchoesStmt σ strict (doWhileOf span body jumps cond) (doWhileOf span body' jumps cond') := by
  have hnode : (Stmt.doWhile span body cond).Alike (.doWhile span body' cond') := by
    rw [Stmt.Alike, Stmt.hush, Stmt.hush, hc, hb]
  unfold doWhileOf
  rw [hc.known?]
  split
  · split
    · exact .pure hb
    · exact .pure hnode
  · exact .bind (warnIfEmpty_follows hb) fun _ _ _ => .pure hnode
  · exact .pure hnode

theorem forOf_echoes {cond : Option Expr} {step step' : Typing (Option Stmt)}
    {body body' : Typing Stmt} (hstep : Follows σ strict (Option.map Stmt.hush) step step')
    (hbody : EchoesStmt σ strict body body') :
    EchoesStmt σ strict (forOf span cond step body) (forOf span cond step' body') := by
  unfold forOf
  refine .bind settleCondition_follows fun c c' hc => ?_
  have hloop : Follows σ strict (Prod.map (Option.map Stmt.hush) Stmt.hush)
      (do
        let step ← step
        let body ← body
        return (step, body))
      (do
        let step ← step'
        let body ← body'
        return (step, body)) :=
    .bind hstep fun _ _ hs => .bind hbody fun _ _ hb => .pure (Prod.ext hs hb)
  refine .bind hloop.inLoop fun ((s, b), _) ((s', b'), _) hp => ?_
  obtain ⟨hs, hb⟩ := Prod.ext_iff.1 (congrArg Prod.fst hp)
  have hcond : c'.bind known? = c.bind known? ∧ c'.isNone = c.isNone := by
    rcases option_cases hc with ⟨rfl, rfl⟩ | ⟨e, e', rfl, rfl, he : e.Alike e'⟩
    · exact ⟨rfl, rfl⟩
    · exact ⟨he.known?, rfl⟩
  have hnode (o o' : Option Expr) (ho : o.map Expr.hush = o'.map Expr.hush) :
      (Stmt.forLoop span none o s b).Alike (.forLoop span none o' s' b') := by
    simp_all [Stmt.Alike, Stmt.hush]
  dsimp only
  rw [hcond.1, hcond.2]
  split
  · exact .pure rfl
  · exact .bind (warnIfEmpty_follows hb) fun _ _ _ => .pure (hnode none none rfl)
  · exact .whenever (warnIfEmpty_follows hb) (.pure (hnode c c' hc))

end Loops

end Typing

/-! ## Trees -/

mutual

theorem Stmt.settle_echoes : (s : Stmt) → Same σ strict Stmt.hush s.settle
  | .nop _ => .pure rfl
  | .expr _ value => by
    rw [Stmt.settle]
    exact .bind value.settle_echoes fun _ _ h => .pure (congrArg (Stmt.expr _) h)
  | .sequence _ body => by
    rw [Stmt.settle]
    refine .bind (settleSequence_follows body) fun _ _ h => .pure ?_
    simp only [Stmt.hush, Stmt.hushAll_eq_map, h]
  | .block _ body _ => by
    rw [Stmt.settle]
    refine .bind (settleBlock_follows body).inBlock fun (b, l) (b', l') h => .pure ?_
    obtain ⟨hb, hl⟩ := Prod.ext_iff.1 h
    cases hl
    dsimp only [Prod.map] at hb
    simp only [Stmt.hush, Stmt.hushAll_eq_map, hb]
  | .branch _ _ none none => .pure rfl
  | .branch _ cond (some t) f => by
    rw [Stmt.settle]
    · exact .bind cond.settleBool_echoes fun _ _ hc =>
        .bind (settleBranch_follows (some t)) fun _ _ ht =>
        .bind (settleBranch_follows f) fun _ _ hf => .pure (branchOf_alike hc ht hf)
    · simp
  | .branch _ cond none (some f) => by
    rw [Stmt.settle]
    · exact .bind cond.settleBool_echoes fun _ _ hc =>
        .bind (settleBranch_follows none) fun _ _ ht =>
        .bind (settleBranch_follows (some f)) fun _ _ hf => .pure (branchOf_alike hc ht hf)
    · simp
  | .whileLoop _ cond body => by
    rw [Stmt.settle]
    exact .bind cond.settleBool_echoes fun _ _ hc => .bind body.settle_echoes.inLoop
      fun (b, _) (b', _) hb => whileOf_echoes hc (congrArg Prod.fst hb)
  | .doWhile _ body cond => by
    rw [Stmt.settle]
    refine .bind body.settle_echoes.inLoop fun (b, n) (b', n') hb => .bind cond.settleBool_echoes
      fun _ _ hc => ?_
    obtain ⟨hb, hn⟩ := Prod.ext_iff.1 hb
    cases hn
    exact doWhileOf_echoes hc hb
  | .forLoop _ none cond step body => by
    rw [Stmt.settle]
    exact forOf_echoes (settleBranch_follows step) body.settle_echoes
  | .forLoop span (some first) cond step body => by
    have hparts : Follows σ strict (Prod.map Stmt.hush Stmt.hush)
        (do
          let first ← first.settle
          let loop ← forOf span cond (settleBranch step) body.settle
          return (first, loop))
        (do
          let first ← first.settle
          let loop ← forOf span cond (settleBranch step) body.settle
          return (first, loop)) :=
      .bind first.settle_echoes fun _ _ hf =>
        .bind (forOf_echoes (settleBranch_follows step) body.settle_echoes) fun _ _ hl =>
        .pure (Prod.ext hf hl)
    rw [Stmt.settle]
    refine .bind hparts.inBlock fun ((f, l), vs) ((f', l'), vs') h => .pure ?_
    obtain ⟨hp, hvs⟩ := Prod.ext_iff.1 h
    obtain ⟨hf, hl : l.Alike l'⟩ := Prod.ext_iff.1 hp
    cases hvs
    rw [hl.isEmpty]
    split <;> simp_all [Stmt.hush, Stmt.Alike]
  | .jump _ _ => by
    rw [Stmt.settle]
    exact .bind noteJump_follows fun _ _ _ => .pure rfl
  | .ret _ _ => by
    rw [Stmt.settle]
    exact settleReturn_echoes
  | .declare _ _ _ _ _ => by
    rw [Stmt.settle]
    exact settleDeclaration_echoes

theorem settleBranch_follows : (o : Option Stmt) →
    Same σ strict (Option.map Stmt.hush) (settleBranch o)
  | none => .pure rfl
  | some s => by
    rw [settleBranch]
    exact .bind s.settle_echoes fun _ _ h => .pure (congrArg some h)

theorem settleSequence_follows : (body : List Stmt) →
    Same σ strict (List.map Stmt.hush) (settleSequence body)
  | [] => .pure rfl
  | s :: rest => by
    rw [settleSequence]
    exact .bind s.settle_echoes fun _ _ hs => .bind (settleSequence_follows rest)
      fun _ _ hrest => .pure (congrArg₂ List.cons hs hrest)

theorem settleBlock_follows : (body : List Stmt) →
    Same σ strict (List.map Stmt.hush) (settleBlock body)
  | [] => .pure rfl
  | s :: rest => by
    rw [settleBlock]
    refine .bind (orDrop_follows s.settle_echoes) fun a a' ha => .bind (settleBlock_follows rest)
      fun _ _ hrest => .pure ?_
    rw [List.map_append, List.map_append, hrest]
    cases a <;> cases a' <;> simp_all

end

end ActorScript
