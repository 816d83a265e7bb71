import ActorScript.Proofs.Typing.Expressions

/-! # Nodes of typed trees

Every node that typing makes has a type that follows from what the node is and from the types of
its operands. Afterwards a node may only be read under another type that its values fit too.
-/

namespace ActorScript

/-! ## Nodes -/

open Typing (numberType signedType?)

/-- The type that a node is made with. Local variables have the types that `types` gives. -/
inductive Expr.Makes (types : LocalId → Ty) : Expr → Ty → Prop
  | constant {m : Mark} {c : Constant} : Makes types (.constant m c) c.ty
  | cast {m : Mark} {kind : CastKind} {e : Expr} : Makes types (.cast m kind e) kind.ty
  | intCast {m : Mark} {e : Expr} {quiet : Bool} : Makes types (.intCast m e quiet) .int
  | classCast {m : Mark} {e : Expr} {target : ClassId} :
      Makes types (.classCast m e target) (.classPtr target)
  | minus {m : Mark} {e : Expr} {ty : Ty} :
      signedType? e.ty = some ty → Makes types (.unary m .minus e) ty
  | bitNot {m : Mark} {e : Expr} :
      Makes types (.unary m .bitNot e) (if e.ty.isUnsigned then .uint else .int)
  | boolNot {m : Mark} {e : Expr} : e.ty = .bool → Makes types (.unary m .boolNot e) .bool
  | step {m : Mark} {op : StepOp} {before : Bool} {e : Expr} :
      e.ty.isNumeric = true → e.ty ≠ .bool → Makes types (.step m op before e) e.ty
  | assign {m : Mark} {target value : Expr} :
      value.ty = target.ty → Makes types (.assign m target value) target.ty
  | assigned {m : Mark} {ty : Ty} : Makes types (.assigned m) ty
  | binary {m : Mark} {op : BinOp} {l r : Expr} :
      Makes types (.binary m op l r) (op.resultType l.ty r.ty)
  | logical {m : Mark} {op : LogicalOp} {l r : Expr} :
      l.ty = .bool → r.ty = .bool → Makes types (.logical m op l r) .bool
  | conditional {m : Mark} {cond t f : Expr} {ty : Ty} :
      cond.ty = .bool → (ty = .bool → t.ty = .bool ∧ f.ty = .bool) →
      Makes types (.conditional m cond t f) ty
  | selfRef {m : Mark} {cls : ClassId} : Makes types (.selfRef m) (.object cls)
  | localVar {m : Mark} {id : LocalId} : Makes types (.localVar m id) (types id)
  | field {m : Mark} {object : Expr} {offset : Nat} {readonly : Bool} {ty : Ty} :
      Makes types (.field m object offset readonly) ty
  | element {m : Mark} {array index : Expr} {elem : Ty} {count : Nat} :
      array.ty = .array elem count → Makes types (.element m array index) elem
  | invoke {m : Mark} {object : Option Expr} {f : Signature} {args : List Expr} {tail : Bool} :
      args.map Expr.ty = f.params →
      Makes types (.invoke m object f args tail) (f.returns.headD .void)
  | special {m : Mark} {number : Int32} {args : List Expr} {tail : Bool} :
      Makes types (.special m number args tail) .int
  | floatFn {m : Mark} {fn : FloatFn} {e : Expr} : Makes types (.floatFn m fn e) .double
  | random {m : Mark} {float : Bool} {rng : String} {low high : Expr} {tail : Bool} :
      Makes types (.random m float rng low high tail) (numberType float)
  | random2 {m : Mark} {rng : String} {mask : Expr} {tail : Bool} :
      Makes types (.random2 m rng mask tail) .int
  | randomPick {m : Mark} {float : Bool} {rng : String} {choices : List Expr} :
      Makes types (.randomPick m float rng choices) (numberType float)
  | extremum {m : Mark} {op : Extremum} {args : List Expr} {float : Bool} :
      (∀ e ∈ args, e.ty.isNumeric = true ∧ e.ty.isFloat = float) →
      Makes types (.extremum m op args) (numberType float)
  | abs {m : Mark} {e : Expr} {ty : Ty} : signedType? e.ty = some ty → Makes types (.abs m e) ty
  | atan2 {m : Mark} {y x : Expr} : Makes types (.atan2 m y x) .double
  | runtimeState {m : Mark} {index : Expr} {tail : Bool} :
      Makes types (.runtimeState m index tail) .state
  | stateLabel {m : Mark} {text : String} {names : List String} {tail : Bool} :
      Makes types (.stateLabel m text names tail) .state

/-- A node with a type that it may be read with. A constant has the type of its value, which is as
a constant should be. -/
structure Expr.Proper (firm : Bool) (types : LocalId → Ty) (e : Expr) : Prop where
  typed : e.mark.ty.isSome
  made : ∃ ty, e.Makes types ty ∧ ty.Reads e.ty
  constant : ∀ c, e.constant? = some c → e.ty = c.ty ∧ c.Fair firm

abbrev Expr.Checked (firm : Bool) (types : LocalId → Ty) (e : Expr) : Prop :=
  e.Every (Expr.Proper firm types)

namespace Expr

variable {e : Expr}

@[simp] theorem constant?_withMark (m : Mark) : (e.withMark m).constant? = e.constant? := by
  cases e <;> rfl

theorem Makes.withMark {types : LocalId → Ty} {ty : Ty} (h : e.Makes types ty) (m : Mark) :
    (e.withMark m).Makes types ty := by
  cases h <;> constructor <;> assumption

end Expr

namespace Expr.Checked

variable {firm : Bool} {types : LocalId → Ty} {e : Expr}

theorem ofNode {ty : Ty} (hty : e.mark.ty = some ty) (hmakes : e.Makes types ty)
    (hconst : e.constant? = none) (hchildren : ∀ x ∈ e.children, x.Checked firm types) :
    e.Checked firm types := by
  refine every_iff.2 ⟨⟨by simp [hty], ⟨ty, hmakes, ?_⟩, by simp [hconst]⟩, hchildren⟩
  simp only [Expr.ty, hty, Option.getD_some]
  exact .refl ty

theorem child {x : Expr} (h : e.Checked firm types) (hx : x ∈ e.children) :
    x.Checked firm types :=
  (every_iff.1 h).2 x hx

theorem retype (h : e.Checked firm types) {ty : Ty} (hty : e.ty.Reads ty) :
    (e.retype ty).Checked firm types := by
  obtain ⟨⟨htyped, ⟨made, hmakes, hreads⟩, hconst⟩, hchildren⟩ := every_iff.1 h
  by_cases hc : ∃ m c, e = .constant m c
  · obtain ⟨m, c, rfl⟩ := hc
    obtain ⟨hsame, hfair⟩ := hconst c rfl
    rw [hsame] at hty
    exact every_iff.2 ⟨⟨rfl, ⟨ty, .constant, .refl _⟩, by rintro _ ⟨⟩; exact ⟨rfl, hfair.read hty⟩⟩,
      by simp [Expr.retype, Expr.children]⟩
  · have hretype : e.retype ty = e.withMark { e.mark with ty := some ty } := by
      cases e <;> first | rfl | exact absurd ⟨_, _, rfl⟩ hc
    have hnone : e.constant? = none := by
      cases e <;> first | rfl | exact absurd ⟨_, _, rfl⟩ hc
    rw [hretype]
    refine every_iff.2 ⟨⟨by simp, ⟨made, hmakes.withMark _, ?_⟩, by simp [hnone]⟩, by simpa using hchildren⟩
    exact hreads.trans (by simpa [Expr.ty] using hty)

theorem requestAddress (h : e.Checked firm types) : e.requestAddress.Checked firm types := by
  obtain ⟨⟨htyped, ⟨made, hmakes, hreads⟩, hconst⟩, hchildren⟩ := every_iff.1 h
  unfold Expr.requestAddress
  refine every_iff.2 ⟨⟨by simpa using htyped, ⟨made, hmakes.withMark _, ?_⟩, ?_⟩, by simpa using hchildren⟩
  · simpa [Expr.ty] using hreads
  · simpa [Expr.ty] using hconst

theorem replaceArray {m : Mark} {array array' index : Expr}
    (h : (Expr.element m array index).Checked firm types) (ha : array'.Checked firm types)
    (hty : array'.ty = array.ty) : (Expr.element m array' index).Checked firm types := by
  obtain ⟨⟨htyped, ⟨made, hmakes, hreads⟩, -⟩, hchildren⟩ := every_iff.1 h
  refine every_iff.2 ⟨⟨htyped, ⟨made, ?_, hreads⟩, by rintro _ ⟨⟩⟩, ?_⟩
  · cases hmakes with
    | element helem => exact .element (hty.trans helem)
  · have hindex := hchildren index (by simp [Expr.children])
    simpa [Expr.children] using ⟨ha, hindex⟩

theorem addressOf (h : e.Checked firm types) {writable : Bool} {place : Expr}
    (hplace : e.addressOf? = some (writable, place)) :
    place.Checked firm types ∧ place.ty = e.ty := by
  fun_induction Expr.addressOf? e generalizing writable place with
  | case1 | case2 | case4 | case5 =>
    cases hplace
    exact ⟨h.requestAddress, rfl⟩
  | case3 m array index ih =>
    obtain ⟨⟨w, a⟩, ha, hpair⟩ := Option.map_eq_some_iff.1 hplace
    cases hpair
    obtain ⟨hchecked, hty⟩ := ih (h.child (by simp [Expr.children])) ha
    exact ⟨(h.replaceArray hchecked hty).requestAddress, rfl⟩
  | case6 => cases hplace

theorem markTail (h : e.Checked firm types) : e.markTail.Checked firm types := by
  obtain ⟨⟨htyped, ⟨made, hmakes, hreads⟩, hconst⟩, hchildren⟩ := every_iff.1 h
  refine every_iff.2 ?_
  cases hmakes with
  | invoke hargs =>
    exact ⟨⟨htyped, ⟨_, .invoke hargs, hreads⟩, hconst⟩, hchildren⟩
  | special => exact ⟨⟨htyped, ⟨_, .special, hreads⟩, hconst⟩, hchildren⟩
  | random => exact ⟨⟨htyped, ⟨_, .random, hreads⟩, hconst⟩, hchildren⟩
  | random2 => exact ⟨⟨htyped, ⟨_, .random2, hreads⟩, hconst⟩, hchildren⟩
  | runtimeState => exact ⟨⟨htyped, ⟨_, .runtimeState, hreads⟩, hconst⟩, hchildren⟩
  | stateLabel => exact ⟨⟨htyped, ⟨_, .stateLabel, hreads⟩, hconst⟩, hchildren⟩
  | _ => exact every_iff.1 h

end Expr.Checked

/-! ## Rules -/

open Typing

theorem Expr.Made.makes {σ : Setting} {s : Scope} {e : Expr} (h : e.Made σ s) :
    ∃ ty, e.mark.ty = some ty ∧ e.Makes s.typeOf ty := by
  cases h with
  | @binary _ op l r ty _ _ _ _ _ _ hresult => exact ⟨ty, rfl, hresult ▸ .binary⟩
  | _ => exact ⟨_, rfl, by constructor <;> assumption⟩

/-- Being of proper nodes outlasts the rules of typing. -/
theorem checked_lasting {σ : Setting} (hw : σ.world.InStep) (firm : Bool) :
    Lasting σ firm fun s e => e.Checked firm s.typeOf where
  pliant s := by
    constructor
    · constructor
      · exact fun he _ => he
      · intro operands _ _ m c hm _ hoperands hfair
        refine Expr.every_iff.2 ⟨⟨by simp [Expr.mark, hm], ⟨c.ty, .constant, ?_⟩, ?_⟩,
          by simp [Expr.children]⟩
        · simp only [Expr.ty, Expr.mark, hm, Option.getD_some]
          exact .refl _
        · rintro _ ⟨⟩
          exact ⟨by simp [Expr.ty, Expr.mark, hm],
            hfair hw fun x hx => (hoperands.always x hx x .root).constant⟩
      · intro _ e hmade hchildren
        obtain ⟨ty, hty, hmakes⟩ := hmade.makes
        exact .ofNode hty hmakes hmade.constant? hchildren.always
    · exact fun he _ hreads => he.retype hreads
    · intro _ _ span array place index writable elem count ha hi hplace hty _ _
      obtain ⟨hplace, hpty⟩ := ha.addressOf hplace
      exact .ofNode rfl (.element (hpty.trans hty)) rfl
        (by simpa [Expr.children] using ⟨hplace, hi⟩)
    · intro _ span op before x place hx hplace hnum hbool
      obtain ⟨hplace, hty⟩ := hx.addressOf hplace
      rw [← hty] at hnum hbool ⊢
      exact .ofNode rfl (.step hnum hbool) rfl (by simpa [Expr.children] using hplace)
  inType s e h c hc := ((h e .root).constant c hc).1
  noted hn he := by
    rwa [funext (Scope.typeOf_eq hn.core)]
  assign {s span target place value} htarget hvalue hty hplace := by
    obtain ⟨hplace, hpty⟩ := htarget.addressOf hplace
    rw [← hpty] at hty ⊢
    exact .ofNode rfl (.assign hty) rfl (by simpa [Expr.children] using ⟨hplace, hvalue⟩)
  assigned _ := .ofNode rfl .assigned rfl (by simp [Expr.children])

/-- Typing a tree gives one of proper nodes, unless it is rejected. Its truth values are canonical
too, unless a shift to the left of truth values was among what was written. -/
theorem Written.settle_checks {σ : Setting} (hw : σ.world.InStep) (firm : Bool) {e : Expr}
    (h : Written e) {s : Scope} (hshift : firm = true → ¬ e.ShiftsTruth σ s) :
    Ensures σ s e.settle (Expr.Checked firm s.typeOf) :=
  h.settle_bears (checked_lasting hw firm) hshift

end ActorScript
