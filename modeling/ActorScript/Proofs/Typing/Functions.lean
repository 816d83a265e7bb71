import ActorScript.Function
import ActorScript.Proofs.Typing.Statements

/-! # Typing whole functions

The body of a function is typed from a scope that has nothing but the parameters, and a damage
expression from an empty one.
-/

namespace ActorScript

open Typing

variable {p : LocalId × Ty} {s : Scope} {body : Stmt}

/-! ## Parameters -/

def Scope.withParams (params : Array LocalVar) : Scope :=
  { locals := params, params := List.range params.size }

theorem Scope.ofParams_eq (params : List (String × Ty)) :
    Scope.ofParams params = (List.range params.length,
      .withParams (params.map fun p => ⟨p.1, p.2, true⟩).toArray) := by
  have go (before : Array LocalVar) :
      params.foldl Scope.addParam (List.range before.size, .withParams before) =
        (List.range (before.size + params.length),
          .withParams (before ++ (params.map fun p => ⟨p.1, p.2, true⟩).toArray)) := by
    induction params generalizing before with
    | nil => simp
    | cons p rest ih =>
      have hstep : Scope.addParam (List.range before.size, .withParams before) p =
          (List.range (before.push ⟨p.1, p.2, true⟩).size,
            .withParams (before.push ⟨p.1, p.2, true⟩)) := by
        simp [Scope.addParam, Scope.declareParam, Scope.withParams, List.range_succ]
      rw [List.foldl_cons, hstep, ih]
      simp [Nat.add_assoc, Nat.add_comm 1]
  have hgo := go #[]
  simp only [Array.size_empty, Nat.zero_add, Array.empty_append] at hgo
  exact hgo

section Functions

variable {w : World} {o : Options} {params : List (String × Ty)}

theorem Scope.ofParams_ready (params : List (String × Ty)) : (Scope.ofParams params).2.Ready where
  visible v hv := by
    rw [Scope.ofParams_eq] at hv ⊢
    simpa [Scope.withParams, Scope.lookupOrder] using hv
  targets := by rw [Scope.ofParams_eq]; rfl

/-- Parameters have the types that they are declared with. -/
theorem Scope.ofParams_typeOf (h : p ∈ (Scope.ofParams params).1.zip (params.map Prod.snd)) :
    p.1 < (Scope.ofParams params).2.locals.size ∧ (Scope.ofParams params).2.typeOf p.1 = p.2 := by
  rw [Scope.ofParams_eq] at h ⊢
  obtain ⟨i, hi, hp⟩ := List.mem_iff_getElem.1 h
  simp only [List.getElem_zip, List.getElem_range, List.getElem_map] at hp
  simp only [List.length_zip, List.length_range, List.length_map, Nat.min_self] at hi
  subst hp
  simp [Scope.withParams, Scope.typeOf, hi]

/-! ## Bodies -/

/-- The context in which a typed body is settled. -/
def Context.ofBody (w : World) (o : Options) (s : Scope) : Context where
  setting := .ofOptions w o true
  kind := o.kind
  types := s.typeOf

theorem Context.ofBody_covers (w : World) (o : Options) (s : Scope) :
    (Context.ofBody w o s).Covers (.ofOptions w o true) s where
  setting := rfl
  kind h hk := by
    change o.kind = .static at hk
    simp [Setting.ofOptions, Setting.selfClass?, hk] at h
  types _ _ := rfl
  target := rfl

/-- A body that typing accepts is settled, and nothing of it stands in a block or a loop around. -/
structure Stmt.Accepted (w : World) (o : Options) (params : List (String × Ty)) (body : Stmt)
    (s : Scope) : Prop where
  placed : body.Placed (.ofOptions w o true) (Scope.ofParams params).2 s [] 0
  scope : (Scope.ofParams params).2.Extends s [] 0
  fatal : s.hasFatal o.strict = false

theorem settleFor_ok {α : Type} {inFunction : Bool} {scope : Scope} {x : Typing α} {a : α}
    (h : settleFor w o inFunction scope x = .ok (a, s)) :
    x.runFrom (.ofOptions w o inFunction) scope = (.ok a, s) ∧ s.hasFatal o.strict = false := by
  unfold settleFor at h
  split at h
  · cases h
  next hrun =>
    split at h
    · cases h
    next hfatal =>
      cases h
      exact ⟨hrun, by simpa using hfatal⟩

theorem settleFunction_accepted {body' : Stmt} (hbody : WrittenStmt body)
    (h : settleFunction w o params body = .ok (body', s)) : body'.Accepted w o params s := by
  obtain ⟨hrun, hfatal⟩ := settleFor_ok h
  obtain ⟨added, jumps, hext, hstands⟩ := (hbody.settle_places (settledIn_lasting _) _).of_run hrun
  have hadded := hext.inBlock (by rw [Scope.ofParams_eq]; rfl)
  have hjumps := hext.inLoop (by rw [Scope.ofParams_eq]; rfl)
  subst hadded hjumps
  exact ⟨hstands.placed (Scope.ofParams_ready params), hext, hfatal⟩

theorem Stmt.Accepted.settled (h : body.Accepted w o params s) : SettledStmt (.ofBody w o s) body :=
  h.placed.settled _ (Context.ofBody_covers w o s)

theorem Stmt.Accepted.paramType (h : body.Accepted w o params s)
    (hp : p ∈ (Scope.ofParams params).1.zip (params.map Prod.snd)) :
    (Context.ofBody w o s).types p.1 = p.2 := by
  obtain ⟨hlt, hty⟩ := Scope.ofParams_typeOf hp
  exact (h.scope.typeOf_eq hlt).trans hty

/-! ## Damage -/

theorem settleDamage_ensures {e : Expr} {σ : Setting} {c : Context} (h : Written e)
    (hc : c.Fits σ s) : Ensures σ s (settleDamage e) fun value =>
      Settled c false value ∧ value.ty.bank? = some .int := by
  unfold settleDamage
  refine .bind h.settle_in fun value hvalue => .guarded fun _ => ?_
  exact (toInt_bears (settled_pliant hc).toHereditary (n := 0) (hvalue c hc) false).mono fun _ he =>
    ⟨he.1, Ty.bank_of_isWord he.2.1⟩

theorem settleDamage_settled {e value : Expr} (h : Written e)
    (hrun : settleFor w o true {} (settleDamage e) = .ok (value, s)) :
    Settled (.ofBody w o s) false value ∧ value.ty.bank? = some .int := by
  have hc : (Context.ofBody w o s).Fits (.ofOptions w o true) ({} : Scope) := {
    setting := rfl
    kind := (Context.ofBody_covers w o s).kind
    types := by simp [Scope.lookupOrder]
    target := rfl }
  exact (settleDamage_ensures h hc).of_run (settleFor_ok hrun).1

end Functions

end ActorScript
