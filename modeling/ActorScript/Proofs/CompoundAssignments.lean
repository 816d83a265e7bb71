import ActorScript.Proofs.Lowering.Nesting
import ActorScript.Proofs.MemberAccess
import ActorScript.Proofs.Nodes.Basic

/-! # Compound assignments in each other

The right side of a compound assignment holds a mark for its left side that does not say which
assignment it belongs to. Reading puts the mark directly into the right side of its assignment.
Typing finds the assignment by a stack of types and lowering by a stack of places. Here it is shown
that both find the assignment that the mark was written in, however assignments nest: in the typed
tree the mark stands in the right side of what became of that assignment and has the type of what
became of its left side, and the code of the mark reads the place that the code of this left side
gave. No rule of typing uses an operand twice, so no assignment becomes two.
-/

namespace ActorScript

open Typing

namespace Expr

/-! ## Trees as they are read -/

/-- The left side of an assignment is read again only as the first operand of what is assigned. -/
inductive Sealed : Expr → Prop
  | node {e : Expr} : e.isPlain = true → (∀ x ∈ e.children, Sealed x) → Sealed e
  | assign {m : Mark} {target value : Expr} :
      Sealed target → Sealed value → Sealed (.assign m target value)
  | compound {m m' m'' : Mark} {op : BinOp} {target value : Expr} :
      Sealed target → Sealed value →
      Sealed (.assign m target (.binary m' op (.assigned m'') value))

theorem isPlain_withMark (e : Expr) (m : Mark) : (e.withMark m).isPlain = e.isPlain := by
  cases e <;> rfl

theorem sealed_withSpan {place : Nat} {ts : List Lexed} {e : Expr} (h : Phrase place ts e) :
    ∀ span, Sealed (e.withSpan span) := by
  have itself {e : Expr} (h : ∀ span, Sealed (e.withSpan span)) : Sealed e :=
    e.withSpan_span ▸ h e.span
  have each {parts : List (List Lexed × Expr)}
      (h : ∀ p ∈ parts, ∀ span, Sealed (p.2.withSpan span)) :
      ∀ e ∈ parts.map Prod.snd, Sealed e := by
    simpa using fun e ts hp => itself (h (ts, e) hp)
  have both {l r : Expr} (hl : Sealed l) (hr : Sealed r) : ∀ e ∈ [l, r], Sealed e := by
    simpa using ⟨hl, hr⟩
  induction h with intro span
  | looser _ _ ih => exact ih span
  | parens _ ih => exact (withSpan_withSpan _ _ _).symm ▸ ih span
  | constant | selfRef | identifier => exact .node rfl nofun
  | call _ _ _ ih | callWith _ _ ih => exact .node rfl (each ih)
  | memberCall _ _ _ ih ihs => exact .node rfl (List.forall_mem_cons.2 ⟨itself ih, each ihs⟩)
  | cast _ _ ih | classCast _ ih | member _ ih | stepAfter _ ih | stepBefore _ ih | unary _ ih
  | storage _ ih => exact .node rfl (List.forall_mem_singleton.2 (itself ih))
  | element _ _ ihl ihr | raised _ _ ihl ihr =>
    exact .node rfl (both (itself ihl) (itself ihr))
  | @joined _ _ _ op _ _ _ _ _ _ _ ihl ihr =>
    cases op <;> exact .node rfl (both (itself ihl) (itself ihr))
  | conditional _ _ _ ihc iht ihf =>
    exact .node rfl (List.forall_mem_cons.2 ⟨itself ihc, both (itself iht) (itself ihf)⟩)
  | @assigned _ _ op _ _ _ _ _ _ _ ihl ihr =>
    cases op with
    | none => exact .assign (itself ihl) (itself ihr)
    | some op => exact .compound (itself ihl) (itself ihr)

/-! ## What becomes of a tree -/

/-- What may become of a tree in the right side of an assignment to a left side of some type, or
in none. It is made of what became of its parts. An assignment stays one where it is, of what
became of its right side to what became of its left side, and if that left side is read again it
is as something of its type. -/
inductive Becomes : Option Ty → Expr → Expr → Prop
  | node {self : Option Ty} {source e : Expr} :
      e.isPlain = true → (∀ x ∈ e.children, Becomes self source x) → Becomes self source e
  | part {self : Option Ty} {source child e : Expr} :
      source.isPlain = true → child ∈ source.children → Becomes self child e →
      Becomes self source e
  | assign {self : Option Ty} {m m' : Mark} {target value target' value' : Expr} :
      m'.span = m.span → Becomes self target target' → Becomes (some target'.ty) value value' →
      Becomes self (.assign m target value) (.assign m' target' value')
  | again {m m' : Mark} {ty : Ty} :
      m'.span = m.span → m'.ty = some ty → Becomes (some ty) (.assigned m) (.assigned m')

def isAgain : Expr → Bool
  | .assigned _ => true
  | _ => false

namespace Becomes

variable {self : Option Ty} {source e : Expr}

theorem child (h : Becomes self source e) (hplain : e.isPlain = true) :
    ∀ x ∈ e.children, Becomes self source x := by
  induction h with
  | node _ h => exact h
  | part hsource hchild _ ih => exact fun x hx => .part hsource hchild (ih hplain x hx)
  | assign | again => cases hplain

/-- But for the marks of left sides, the type of a node and how it is asked for do not matter. -/
theorem withMark (h : Becomes self source e) (hagain : e.isAgain = false) {m : Mark}
    (hm : m.span = e.mark.span) : Becomes self source (e.withMark m) := by
  induction h with
  | node hplain h => exact .node ((isPlain_withMark _ _).trans hplain) (by simpa using h)
  | part hsource hchild _ ih => exact .part hsource hchild (ih hagain hm)
  | assign hspan htarget hvalue => exact .assign (hm.trans hspan) htarget hvalue
  | again => cases hagain

end Becomes

theorem isAgain_withMark (e : Expr) (m : Mark) : (e.withMark m).isAgain = e.isAgain := by
  cases e <;> rfl

theorem isAgain_of_isPlain {e : Expr} (h : e.isPlain = true) : e.isAgain = false := by
  cases e with
  | assigned => cases h
  | _ => rfl

/-! ## How often an assignment turns up -/

/-- Whether the node itself is an assignment at the span, as a number. -/
def assignsAt (span : Span) : Expr → Nat
  | .assign m _ _ => if m.span = span then 1 else 0
  | _ => 0

/-- How many assignments of the tree stand at the span. -/
def assignments (span : Span) (e : Expr) : Nat :=
  e.assignsAt span + (e.children.attach.map fun x => assignments span x.1).sum
termination_by sizeOf e
decreasing_by exact sizeOf_lt_of_mem x.2

section Assignments

variable {span : Span} {e : Expr}

theorem assignments_eq (span : Span) (e : Expr) :
    e.assignments span = e.assignsAt span + (e.children.map (assignments span)).sum := by
  rw [assignments, List.attach_map_val]

theorem assignments_of_isPlain (h : e.isPlain = true) :
    e.assignments span = (e.children.map (assignments span)).sum := by
  have hnone : e.assignsAt span = 0 := by
    cases e with
    | assign => cases h
    | _ => rfl
  rw [assignments_eq, hnone, Nat.zero_add]

theorem assignments_assign (m : Mark) (target value : Expr) :
    (Expr.assign m target value).assignments span =
      (if m.span = span then 1 else 0) + (target.assignments span + value.assignments span) := by
  rw [assignments_eq]
  simp [assignsAt, children]

theorem assignments_withMark {m : Mark} (hm : m.span = e.mark.span) :
    (e.withMark m).assignments span = e.assignments span := by
  have hnode : (e.withMark m).assignsAt span = e.assignsAt span := by
    cases e with
    | assign => simp [withMark, assignsAt, hm, mark]
    | _ => rfl
  rw [assignments_eq, hnode, assignments_eq span e]
  simp

end Assignments

/-- What may become of a tree, with at most so many assignments at a span. -/
structure Within (span : Span) (around : Option Ty) (source : Expr) (n : Nat) (e : Expr) :
    Prop where
  becomes : Becomes around source e
  few : e.assignments span ≤ n

/-- What may become of a tree that is not a mark itself. -/
structure Turns (span : Span) (around : Option Ty) (source : Expr) (n : Nat) (e : Expr) : Prop
    extends Within span around source n e where
  unmarked : e.isAgain = false

section Turns

variable {span : Span} {self : Option Ty} {source e e' : Expr} {n : Nat}

/-- A node has as many assignments as its operands together. -/
theorem Within.node (hplain : e.isPlain = true)
    (h : Shared (Within span self source) n e.children) : Within span self source n e := by
  refine ⟨.node hplain fun x hx => ?_, ?_⟩
  · obtain ⟨_, -, hx⟩ := h.mem x hx
    exact hx.becomes
  · rw [assignments_of_isPlain hplain]
    generalize e.children = operands at h
    induction h with
    | nil => exact Nat.zero_le _
    | cons hx _ hsum ih =>
      have := hx.few
      rw [List.map_cons, List.sum_cons]
      omega

theorem Within.part {child : Expr} (hplain : source.isPlain = true)
    (hchild : child ∈ source.children) (h : Within span self child n e) :
    Within span self source n e :=
  ⟨.part hplain hchild h.becomes, h.few⟩

theorem Within.hereditary (σ : Setting) (s : Scope) (span : Span) (self : Option Ty)
    (source : Expr) : Hereditary σ s false (Within span self source) where
  more h hle := ⟨h.becomes, Nat.le_trans h.few hle⟩
  constant _ _ _ _ _ _ _ _ _ := .node rfl .nil
  node hmade h := .node hmade.isPlain h

theorem ty_requestAddress (e : Expr) : e.requestAddress.ty = e.ty := by
  simp [requestAddress, ty]

theorem Turns.withMark (h : Turns span self source n e) {m : Mark} (hm : m.span = e.mark.span) :
    Turns span self source n (e.withMark m) :=
  ⟨⟨h.becomes.withMark h.unmarked hm, assignments_withMark hm ▸ h.few⟩,
    (isAgain_withMark _ _).trans h.unmarked⟩

theorem Turns.ofPlain (hplain : e.isPlain = true)
    (h : Shared (Within span self source) n e.children) : Turns span self source n e :=
  ⟨.node hplain h, isAgain_of_isPlain hplain⟩

/-- The place of a value is made of what the value is made of, and has its type. -/
theorem Turns.addressOf {writable : Bool} (h : Turns span self source n e)
    (hplace : e.addressOf? = some (writable, e')) :
    Turns span self source n e' ∧ e'.ty = e.ty := by
  fun_induction addressOf? e generalizing e' writable n with
  | case1 | case2 | case4 | case5 =>
    cases hplace
    exact ⟨h.withMark rfl, ty_requestAddress _⟩
  | case3 m array index ih =>
    obtain ⟨⟨w, array'⟩, harray, heq⟩ := Option.map_eq_some_iff.1 hplace
    cases heq
    have hchildren := h.becomes.child rfl
    simp only [children, List.mem_cons, List.not_mem_nil, or_false, forall_eq_or_imp,
      forall_eq] at hchildren
    have hagain : array.isAgain = false := by
      cases array with
      | assigned => cases harray
      | _ => rfl
    have hfew := h.few
    rw [assignments_of_isPlain rfl] at hfew
    have harray' := (ih ⟨⟨hchildren.1, Nat.le_refl _⟩, hagain⟩ harray).1
    have helement : Turns span self source n (.element m array' index) :=
      .ofPlain rfl (.more (.both harray'.toWithin ⟨hchildren.2, Nat.le_refl _⟩) hfew)
    exact ⟨helement.withMark rfl, ty_requestAddress _⟩
  | case6 => cases hplace

theorem Turns.retype (h : Turns span self source n e) (ty : Ty) :
    Turns span self source n (e.retype ty) := by
  cases e with
  | constant => exact .ofPlain rfl .nil
  | _ => exact h.withMark rfl

theorem Turns.pliant (σ : Setting) (s : Scope) (span : Span) (self : Option Ty) (source : Expr) :
    Pliant σ s false (Turns span self source) where
  more h hle := ⟨(Within.hereditary σ s span self source).more h.toWithin hle, h.unmarked⟩
  constant _ _ _ _ _ _ _ _ _ := .ofPlain rfl .nil
  node hmade h := .ofPlain hmade.isPlain (h.mono fun _ _ hx => hx.toWithin)
  retype h _ _ := h.retype _
  element ha hi hplace _ _ _ := .ofPlain rfl (.both (ha.addressOf hplace).1.toWithin hi.toWithin)
  step hx hplace _ _ := .ofPlain rfl (.one (hx.addressOf hplace).1.toWithin)

end Turns

end Expr

/-! ## What typing makes of a tree -/

namespace Typing

open ActorScript.Expr (Becomes Within Turns)

variable {σ : Setting} {s : Scope} {span : Span} {self : Option Ty} {m : Mark} {n k : Nat}
  {target value target' value' : Expr}

/-- What typing makes of a tree, with constants in the types of their values. -/
abbrev Turned (span : Span) (self : Option Ty) (source : Expr) (n : Nat) (e : Expr) : Prop :=
  Turns span self source n e ∧ e.InType

theorem assignTo_turns (ht : Turns span self target n target')
    (hv : Turned span (some target'.ty) value k value') :
    Ensures σ s (assignTo m.span target' value')
      (Turned span self (.assign m target value) ((if m.span = span then 1 else 0) + (n + k))) := by
  refine assignTo_bears (Turns.pliant σ s span _ _) hv.1 fun value'' place hv' _ hplace =>
    ⟨⟨⟨?_, ?_⟩, rfl⟩, Expr.inType_of_constant? rfl⟩
  · obtain ⟨hplace, hty⟩ := ht.addressOf hplace
    exact .assign rfl hplace.becomes (hty ▸ hv'.becomes)
  · have hplace := (ht.addressOf hplace).1.few
    have hvalue := hv'.few
    rw [Expr.assignments_assign]
    exact Nat.add_le_add_left (Nat.add_le_add hplace hvalue) _

/-- The left side is read again with the type of the innermost open assignment. -/
theorem assignedAt_within (span : Span) :
    Ensures σ s (assignedAt m.span) fun e =>
      Within span s.targets.head? (.assigned m) 0 e ∧ e.InType := by
  refine assignedAt_ensures.mono ?_
  rintro _ ⟨ty, hty, rfl⟩
  refine ⟨⟨hty ▸ .again rfl rfl, ?_⟩, Expr.inType_of_constant? rfl⟩
  rw [Expr.assignments_eq]
  exact Nat.le_refl 0

end Typing

open ActorScript.Expr (Becomes Within Turns Sealed)

/-- Typing makes of every part of a tree what it should, takes a left side that is read again for
that of the assignment around, and does not use a part twice. -/
theorem Sealed.settle_turns {σ : Setting} {e : Expr} (h : Sealed e) (hw : Written e) (span : Span)
    (s : Scope) :
    Ensures σ s e.settle (Turned span s.targets.head? e (e.assignments span)) := by
  induction h generalizing s with
  | node hplain _ ih =>
    rw [Expr.assignments_of_isPlain hplain]
    refine rule_bears _ (Turns.pliant σ s span _ _).typed (fun _ _ he => he.2) hw hplain nofun
      fun x hx => ?_
    exact (ih x hx (hw.child x hx) s).mono fun _ he =>
      ⟨⟨he.1.toWithin.part hplain hx, he.1.unmarked⟩, he.2⟩
  | assign _ _ iht ihv =>
    cases hw with
    | assign hm ht hv =>
      rw [Expr.settle, unlessTyped_eq (by exact hm), Expr.assignments_assign]
      exact .bind (iht ht s) fun target' ht' => .bind (value_ensures (ihv hv _)) fun _ hv' =>
        assignTo_turns ht'.1 hv'
  | @compound m m' m'' op target value _ _ iht ihv =>
    cases hw with
    | assign hm ht hbinary =>
      cases hbinary with
      | binary hm' hagain hv =>
        cases hagain with
        | assigned hm'' =>
          rw [Expr.settle, unlessTyped_eq (by exact hm), Expr.assignments_assign]
          refine .bind (iht ht s) fun target' ht' => .bind (value_ensures ?_) fun _ hv' =>
            assignTo_turns ht'.1 hv'
          rw [Expr.settle, unlessTyped_eq (by exact hm'), Expr.settle,
            unlessTyped_eq (by exact hm''), Expr.assignments_of_isPlain rfl]
          refine .bind (assignedAt_within span) fun l hl => .bind (ihv hv _) fun r hr => ?_
          refine (binaryOf_bears
            (Within.hereditary σ _ span (some target'.ty)
              (.binary m' op (.assigned m'') value)).typed
            ⟨hl.1.part rfl (by simp [Expr.children]), hl.2⟩
            ⟨hr.1.toWithin.part rfl (by simp [Expr.children]), hr.2⟩ op nofun).mono fun e he => ?_
          refine ⟨⟨(Within.hereditary σ s span _ _).more he.1.1 ?_, Expr.isAgain_of_isPlain he.2⟩,
            he.1.2⟩
          simp [Expr.children]

/-- Types of the left sides that are read again, in order. -/
def Expr.typesAgain : Expr → List Ty
  | .assigned m => [m.ty.getD .error]
  | .assign _ target value => target.typesAgain ++ value.typesAgain
  | .binary _ _ left right => left.typesAgain ++ right.typesAgain
  | _ => []

end ActorScript
