import ActorScript.Proofs.MemberAccess
import ActorScript.Proofs.Nodes.Basic

/-! # Values have exactly the types that they are wanted with

A conversion gives the type that it is asked for. So the arguments of a function have the types of
its parameters, both sides of an assignment have the same type, and a variable is declared with a
value of its own type.
-/

namespace ActorScript

open Typing

/-! ## Exact nodes -/

/-- The arguments of a function have the types of its parameters, and the value of an assignment
has the type of the left side. -/
structure Expr.Exact (e : Expr) : Prop where
  args : ∀ m object f args tail, e = .invoke m object f args tail → args.map Expr.ty = f.params
  value : ∀ m target value, e = .assign m target value → value.ty = target.ty

theorem Expr.Proper.exact {firm : Bool} {types : LocalId → Ty} {e : Expr}
    (h : e.Proper firm types) : e.Exact := by
  obtain ⟨ty, hmakes, -⟩ := h.made
  constructor
  · rintro m object f args tail rfl
    cases hmakes with
    | invoke hargs => exact hargs
  · rintro m target value rfl
    cases hmakes with
    | assign hty => exact hty

theorem Expr.Checked.exact {firm : Bool} {types : LocalId → Ty} {e : Expr}
    (h : e.Checked firm types) : e.Every Expr.Exact :=
  fun node hnode => (h node hnode).exact

theorem Expr.exact_constant {m : Mark} {c : Constant} : (Expr.constant m c).Every Expr.Exact :=
  Expr.every_iff.2 ⟨⟨nofun, nofun⟩, by simp [Expr.children]⟩

def typeAmong (locals : List LocalVar) (id : LocalId) : Ty :=
  (locals[id]?).elim .error LocalVar.ty

/-- The expressions of a statement are of exact nodes, and what it declares has a value of the type
of the variable. -/
structure Stmt.Exact (locals : List LocalVar) (s : Stmt) : Prop where
  exprs : ∀ e ∈ s.exprs, e.Every Expr.Exact
  declared : ∀ span name type value id, s = .declare span name type value id →
    ∃ v i, value = some v ∧ id = some i ∧ typeAmong locals i = v.ty

/-! ## Statements -/

section Statements

variable {locals : List LocalVar} {span : Span}

abbrev Stmt.Exactly (locals : List LocalVar) (s : Stmt) : Prop :=
  s.Every (Stmt.Exact locals)

theorem Stmt.exactly_node {s : Stmt} (hexprs : ∀ e ∈ s.exprs, e.Every Expr.Exact)
    (hdeclares : ∀ span name type value id, s ≠ .declare span name type value id)
    (h : ∀ x ∈ s.children, x.Exactly locals) : s.Exactly locals :=
  every_iff.2 ⟨⟨hexprs, fun _ _ _ _ _ h => absurd h (hdeclares _ _ _ _ _)⟩, h⟩

theorem Stmt.Exactly.getD {x? : Option Stmt} (h : (x?.getD (.nop span)).Exactly locals) :
    ∀ x ∈ x?, x.Exactly locals := by
  rintro x rfl
  exact h

/-- In typed statements of checked expressions, variables are declared with values of their
types. -/
theorem Stmt.Stands.exactly {P : Scope → Expr → Prop} {s s' : Scope} {added : List LocalId}
    {jumps : Nat} {x : Stmt} (hP : ∀ {s e}, P s e → e.Checked false s.typeOf)
    (h : x.Stands P s s' added jumps) (hlocals : s'.locals.toList <+: locals) :
    x.Exactly locals := by
  induction h with
  | nop | nil | jump => exact exactly_node (by simp [exprs]) (by simp) (by simp [children])
  | expr hvalue =>
    exact exactly_node (by simpa [exprs] using (hP hvalue).exact) (by simp) (by simp [children])
  | later _ h' _ ih => exact ih (h'.locals.trans hlocals)
  | behind _ _ _ ih => exact ih hlocals
  | cons _ h' _ _ ih ih' =>
    refine exactly_node (by simp [exprs]) (by simp) ?_
    simpa [children] using ⟨ih (h'.locals.trans hlocals), (every_iff.1 (ih' hlocals)).2⟩
  | block _ _ ih =>
    exact exactly_node (by simp [exprs]) (by simp) (every_iff.1 (ih hlocals)).2
  | branch hcond _ _ h' _ _ _ iht ihf =>
    refine exactly_node (by simpa [exprs] using (hP hcond).exact) (by simp) fun x hx => ?_
    rcases List.mem_append.1 hx with hx | hx
    · exact (iht (h'.locals.trans hlocals)).getD x (Option.mem_toList.1 hx)
    · exact (ihf hlocals).getD x (Option.mem_toList.1 hx)
  | ofLoop _ ih => exact ih hlocals
  | whileLoop hcond _ _ _ ih | doWhile _ hcond _ _ ih =>
    exact exactly_node (by simpa [exprs] using (hP hcond).exact) (by simp)
      (by simpa [children] using ih hlocals)
  | forLoop hcond _ h' _ _ ihstep ihbody =>
    refine exactly_node (by simpa [exprs] using fun e he => (hP (hcond e he).1).exact) (by simp) ?_
    simpa [children, or_imp, forall_and] using
      ⟨(ihstep (h'.locals.trans hlocals)).getD, ihbody hlocals⟩
  | ret hvalue _ _ =>
    exact exactly_node (by simpa [exprs] using fun e he => (hP (hvalue e he)).markTail.exact) (by simp)
      (by simp [children])
  | @declare _ _ _ _ _ value id hvalue _ _ hty hid =>
    refine every_iff.2 ⟨⟨?_, ?_⟩, by simp [children]⟩
    · rcases hvalue with hvalue | ⟨span, ty, rfl⟩
      · simpa [exprs] using (hP hvalue).exact
      · simp only [exprs, Option.toList_some, List.mem_singleton, forall_eq]
        exact Expr.exact_constant
    · rintro _ _ _ _ _ ⟨⟩
      refine ⟨value, id, rfl, rfl, hty ▸ ?_⟩
      obtain ⟨more, rfl⟩ := hlocals
      simp [typeAmong, Scope.typeOf, List.getElem?_append_left, hid]

end Statements

/-! ## Exact types -/

/-- The statement of a text outside of any block, and the scope that typing it leaves. -/
def Setting.bodyOf (σ : Setting) (text : String) : Option (Stmt × Scope) :=
  (parseBody text).toOption.bind fun body =>
    (body.settle.runFrom σ {}).1.toOption.map (·, (body.settle.runFrom σ {}).2)

theorem Setting.bodyOf_eq_some {σ : Setting} {text : String} {body' : Stmt} {s' : Scope}
    (h : σ.bodyOf text = some (body', s')) :
    ∃ body, parseBody text = .ok body ∧ body.settle.runFrom σ {} = (.ok body', s') := by
  obtain ⟨body, hparse, hsettle⟩ := Option.bind_eq_some_iff.1 h
  obtain ⟨b, hb, hpair⟩ := Option.map_eq_some_iff.1 hsettle
  cases hpair
  exact ⟨body, eq_ok_of_toOption hparse, Prod.ext (eq_ok_of_toOption hb) rfl⟩

def Setting.ofActors : Setting :=
  .ofOptions .stock { kind := .action, cls := some 0 } true

end ActorScript
