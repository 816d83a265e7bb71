import ActorScript.Proofs.Typing.Calls
import ActorScript.Proofs.Written
import Mathlib.Algebra.Ring.Nat

/-! # What typing makes of trees

Typing a tree types its operands and then goes by one rule. So what each rule hands on from operands
to its result goes over to whole trees. Assignments are left to the property: their right sides are
typed while they are open.
-/

namespace ActorScript

open Typing

variable {s : Scope} {e : Expr} {Q : Expr → Prop} {P : Scope → Expr → Prop}

/-- A scope but for its diagnostics and for the assignments that are open. -/
def Scope.frame (s : Scope) : Scope :=
  { s with diagnostics := [], targets := [] }

namespace Expr

variable {σ : Setting} {s : Scope} {e x : Expr}

/-- Typing may give the tree a type, with the variables of a scope. -/
def SettlesTo (σ : Setting) (s : Scope) (e : Expr) (ty : Ty) : Prop :=
  ∃ s₁ e' s₂, s₁.frame = s.frame ∧ e.settle.runFrom σ s₁ = (.ok e', s₂) ∧ e'.ty = ty

/-- Somewhere in the tree a truth value is shifted to the left by a truth value. -/
def ShiftsTruth (σ : Setting) (s : Scope) (e : Expr) : Prop :=
  ∃ m l r, e.Part (.binary m .shl l r) ∧ l.SettlesTo σ s .bool ∧ r.SettlesTo σ s .bool

theorem ShiftsTruth.ofChild (hx : x ∈ e.children) (h : x.ShiftsTruth σ s) : e.ShiftsTruth σ s := by
  obtain ⟨m, l, r, hpart, hl, hr⟩ := h
  exact ⟨m, l, r, .operand hx hpart, hl, hr⟩

end Expr

theorem Written.child (h : Written e) : ∀ x ∈ e.children, Written x := by
  cases h <;> simp_all [Expr.children]

namespace Typing

variable {α : Type} {σ : Setting} {s : Scope} {firm : Bool} {P : Nat → Expr → Prop}
  {share : Expr → Nat} {e : Expr} {args : List Expr}

theorem unlessTyped_eq (h : e.mark.ty = none) (rule : Typing Expr) : unlessTyped e rule = rule := by
  simp [unlessTyped, Expr.isTyped, h]

/-- The types of a value are among those that its tree may be given. -/
theorem Ensures.settlesTo (h : Ensures σ s e.settle Q) :
    Ensures σ s e.settle fun e' => Q e' ∧ e.SettlesTo σ s e'.ty := by
  obtain ⟨outcome, ds, hrun, hQ⟩ := h
  refine ⟨outcome, ds, hrun, ?_⟩
  rintro e' rfl
  exact ⟨hQ e' rfl, s, e', _, rfl, hrun s rfl, rfl⟩

/-- A right side is typed while its assignment is the innermost open one. -/
theorem value_ensures {ty : Ty} (h : Ensures σ (s.pushTarget ty) e.settle Q) :
    Ensures σ s (bracket (Scope.pushTarget ty) Scope.popTarget e.settle) Q :=
  .bracket h (fun _ hs' => congrArg (Scope.pushTarget ty) hs') fun _ _ => rfl

/-! ## Arguments -/

theorem settleArgs_bears {prepare : Nat → Span → Expr → Typing Expr} {Q : Nat → Expr → Prop}
    (h : ∀ e ∈ args, Ensures σ s e.settle (P (share e)))
    (hprepare : ∀ index span n x, P n x →
      Ensures σ s (prepare index span x) fun e => P n e ∧ Q index e)
    (index : Nat) :
    Ensures σ s (settleArgs prepare index args) fun args' => args'.length = args.length ∧
      Shared P (args.map share).sum args' ∧ ∀ i e, args'[i]? = some e → Q (index + i) e := by
  induction args generalizing index with
  | nil =>
    rw [settleArgs]
    exact .pure ⟨rfl, .nil, by simp⟩
  | cons e rest ih =>
    rw [settleArgs]
    refine .bind (h e (by simp)) fun x hx => .bind (hprepare index e.span _ x hx) fun e' he' =>
      .bind (ih (fun e he => h e (by simp [he])) (index + 1)) fun rest' hrest =>
        .pure ⟨by simp [hrest.1], .cons he'.1 hrest.2.1 (Nat.le_refl _), ?_⟩
    intro i x hi
    cases i with
    | zero =>
      cases hi
      exact he'.2
    | succ i =>
      have hQ := hrest.2.2 i x hi
      rwa [Nat.add_right_comm, Nat.add_assoc] at hQ

theorem settleLastFirst_bears (h : ∀ e ∈ args, Ensures σ s e.settle (P (share e))) :
    Ensures σ s (settleLastFirst args) fun args' =>
      args'.length = args.length ∧ Shared P (args.map share).sum args' := by
  induction args with
  | nil =>
    rw [settleLastFirst]
    exact .pure ⟨rfl, .nil⟩
  | cons e rest ih =>
    rw [settleLastFirst]
    refine .bind (ih fun e he => h e (by simp [he])) fun rest' hrest =>
      .bind (h e (by simp)) fun e' he' => .pure ?_
    exact ⟨by simp [hrest.1], .cons he' hrest.2 (Nat.le_refl _)⟩

theorem preparedArgs_bears {callee : Callee} (h : Pliant σ s firm P)
    (hargs : ∀ e ∈ args, Ensures σ s e.settle (P (share e))) :
    Ensures σ s (settleArgs (argumentFor callee) 0 args) fun args' => args'.length = args.length ∧
      Shared P (args.map share).sum args' ∧ ∀ i e, args'[i]? = some e → callee.Wants i e := by
  have hprepare (index : Nat) (span : Span) (n : Nat) (x : Expr) (hx : P n x) :
      Ensures σ s (argumentFor callee index span x) fun e => P n e ∧ callee.Wants index e :=
    argumentFor_bears h hx
  exact (settleArgs_bears hargs hprepare 0).mono fun _ ha =>
    ⟨ha.1, ha.2.1, fun i e hi => by simpa using ha.2.2 i e hi⟩

/-! ## One rule -/

/-- The rule of a node over operands that typing makes what it should of, each within its share of
the bound. -/
theorem rule_bears (share : Expr → Nat) (h : Pliant σ s firm P)
    (htyped : ∀ n e, P n e → e.InType) (hw : Written e) (hplain : e.isPlain = true)
    (hshift : firm = true → ¬ e.ShiftsTruth σ s)
    (hchildren : ∀ x ∈ e.children, Ensures σ s x.settle (P (share x))) :
    Ensures σ s e.settle (P (e.children.map share).sum) := by
  have hH := h.toHereditary
  cases hw
  case assign | assigned => cases hplain
  all_goals simp only [Expr.children, List.map_cons, List.map_nil, List.sum_cons, List.sum_nil,
    Nat.add_zero]
  case constant hm hfair =>
    rw [Expr.settle, unlessTyped, if_pos (by simp [Expr.isTyped, Expr.mark, hm])]
    exact .pure (h.constant [] hm hfair.inStep.bank (.nil (n := 0)) fun _ _ =>
      ⟨hfair.inStep, fun _ => hfair.canonical rfl⟩)
  all_goals rw [Expr.settle, unlessTyped_eq (by assumption)]
  case identifier => exact identifierAt_bears hH
  case member => exact .bind (hchildren _ (.head _)) fun _ hx => memberOf_bears hH hx
  case call =>
    refine .bind calleeOf_ensures fun callee hfound => ?_
    split
    · refine .bind (settleLastFirst_bears hchildren) fun args' hargs => ?_
      rw [← hargs.1] at hfound
      exact resultOf_bears hH htyped hfound hargs.2 fun _ _ _ => trivial
    · refine .bind (preparedArgs_bears h hchildren) fun args' hargs => ?_
      rw [← hargs.1] at hfound
      exact resultOf_bears hH htyped hfound hargs.2.1 hargs.2.2
  case memberCall =>
    simp only [Expr.children, List.forall_mem_cons] at hchildren
    refine .bind hchildren.1 fun x hx => .bind (memberTarget_bears hx) ?_
    rintro ⟨object, f⟩ ⟨hobject, hknows⟩
    have hprepared : Ensures σ s (settleArgs (argumentFor (.function f)) 0 _) _ :=
      preparedArgs_bears h hchildren.2
    refine .bind checkInvoke_ensures fun _ hself => .bind hprepared fun args' hargs => .pure ?_
    refine h.node (.invoke (fun e he => (hobject e he).2) ?_ (fun e he => ?_)
      fun hnone hkind => ?_) ?_
    · exact Callee.Wants.params (hself.2.trans hargs.1.symm) hargs.2.2
    · obtain ⟨i, hi⟩ := List.getElem?_of_mem he
      exact (hargs.2.2 i e hi).2
    · exact ⟨hself.1 (by simp [hnone]) hkind, hknows hnone hkind⟩
    · cases object with
      | none => exact hargs.2.1.more (Nat.le_add_left _ _)
      | some object => exact .cons (hobject object rfl).1 hargs.2.1 (Nat.le_refl _)
  case explicitCast =>
    exact .bind .typeNamed fun ty _ => .bind (hchildren _ (.head _)) fun _ hx =>
      (convert_bears h hx ty true).mono fun _ he => he.1
  case unary => exact .bind (hchildren _ (.head _)) fun _ hx => unaryOf_bears hH _ hx
  case storage => exact .bind (hchildren _ (.head _)) fun _ _ => storageOf_bears hH
  case step => exact .bind (hchildren _ (.head _)) fun _ hx => stepOf_bears h _ _ hx
  case binary m op left right hm _ _ =>
    refine .bind (hchildren left (.head _)).settlesTo fun l hl =>
      .bind (hchildren right (.tail _ (.head _))).settlesTo fun r hr =>
        (binaryOf_bears hH hl.1 hr.1 op ?_).mono fun _ he => he.1
    rintro hfirm rfl hlt hrt
    exact hshift hfirm ⟨m, left, right, .root, hlt ▸ hl.2, hrt ▸ hr.2⟩
  case logical =>
    exact .bind (hchildren _ (.head _)) fun _ hl => .bind (toBool_bears hH hl) fun _ hl =>
      .bind (hchildren _ (.tail _ (.head _))) fun _ hr => .bind (toBool_bears hH hr) fun _ hr =>
        .pure (foldLogical_bears hH _ hl hr)
  case conditional =>
    exact .bind (hchildren _ (.head _)) fun _ hc => .bind (toBool_bears hH hc) fun _ hc =>
      .bind (hchildren _ (.tail _ (.head _))) fun _ ht =>
        .bind (hchildren _ (by simp [Expr.children])) fun _ hf => conditionalOf_bears hH hc ht hf
  case selfRef => exact (selfAt_bears hH).mono fun _ he => he.1
  case element =>
    exact .bind (hchildren _ (.head _)) fun _ ha =>
      .bind (hchildren _ (.tail _ (.head _))) fun _ hi => elementOf_bears h ha hi

end Typing

/-! ## All rules -/

/-- A property of trees in a scope that outlasts every rule of typing. -/
structure Typing.Lasting (σ : Setting) (firm : Bool) (P : Scope → Expr → Prop) : Prop where
  pliant : ∀ s, Pliant σ s firm fun _ => P s
  inType : ∀ s e, P s e → e.InType
  noted : ∀ {s s' : Scope} {e : Expr}, s.Noted s' → P s e → P s' e
  assign : ∀ {s : Scope} {span : Span} {target place value : Expr}, P s target →
    P (s.pushTarget target.ty) value → value.ty = target.ty →
    target.addressOf? = some (true, place) →
    P s (.assign (Expr.settled span target.ty) place value)
  assigned : ∀ {s : Scope} {span : Span} {ty : Ty}, s.targets.head? = some ty →
    P s (.assigned (Expr.settled span ty))

/-- What typing makes of a tree has every property that outlasts its rules. -/
theorem Written.settle_bears {σ : Setting} {firm : Bool} (h : Written e) (hP : Lasting σ firm P)
    (hshift : firm = true → ¬ e.ShiftsTruth σ s) : Ensures σ s e.settle (P s) := by
  -- Operands shift no truth values if the whole does not, also on the right of an assignment.
  induction e using Expr.induct generalizing s with
  | h e ih =>
    have operand (x : Expr) (hx : x ∈ e.children) : Ensures σ s x.settle (P s) :=
      ih x hx (h.child x hx) fun hfirm hshifts => hshift hfirm (hshifts.ofChild hx)
    by_cases hplain : e.isPlain = true
    · exact rule_bears (fun _ => 0) (hP.pliant s) (fun _ => hP.inType s) h hplain hshift operand
    cases h with
    | @assign m target value hm ht hv =>
      rw [Expr.settle, unlessTyped_eq (by exact hm)]
      refine .bind (operand target (by simp [Expr.children])) fun target' htarget =>
        .bind (value_ensures (ih value (by simp [Expr.children]) hv fun hfirm hshifts =>
          hshift hfirm (.ofChild (by simp [Expr.children]) hshifts))) fun value' hvalue => ?_
      exact assignTo_bears (hP.pliant _) (n := 0) hvalue fun _ _ hvalue hty hplace =>
        hP.assign htarget hvalue hty hplace
    | assigned hm =>
      rw [Expr.settle, unlessTyped_eq (by exact hm)]
      refine assignedAt_ensures.mono ?_
      rintro _ ⟨ty, hty, rfl⟩
      exact hP.assigned hty
    | _ => exact absurd rfl hplain

theorem Written.settleBool_bears {σ : Setting} (h : Written e) (hP : Lasting σ false P) :
    Ensures σ s e.settleBool fun e' => P s e' ∧ e'.ty = .bool :=
  .bind (h.settle_bears hP nofun) fun _ he => toBool_bears (hP.pliant s).toHereditary (n := 0) he

end ActorScript
