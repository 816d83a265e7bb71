import ActorScript.Proofs.Nodes.Worlds
import ActorScript.Proofs.Settled
import ActorScript.Proofs.Typing.Run

/-! # What the rules of typing make of operands

The rules of typing put new nodes over settled operands, give an operand another type or ask it for
its place. A property that outlasts these steps goes over from the operands of a rule to its result,
so it is enough to say once what each rule makes.
-/

namespace ActorScript

/-! ## Banks of types -/

namespace Ty

variable {a b : Ty}

theorem bank_of_isFloat (h : a.isFloat = true) : a.bank? = some .float := by
  cases a <;> simp [isFloat] at h
  rfl

theorem bank_of_isPointer (h : a.isPointer = true) : a.bank? = some .pointer := by
  simpa [isPointer] using h

theorem bank_of_isNumeric (h : a.isNumeric = true) :
    a.bank? = some (if a.isFloat then .float else .int) := by
  cases a <;> simp [isNumeric] at h <;> rfl

theorem bank_of_isWord (h : a.isWord = true) : a.bank? = some .int := by
  cases a <;> simp [isWord] at h <;> rfl

end Ty

/-! ## Types of operations -/

def CastKind.ty : CastKind → Ty
  | .bool => .bool
  | .float => .double
  | .name => .name
  | .string => .string
  | .color => .color
  | .sound => .sound

namespace Typing

def meetBank (a b : Ty) : Bank :=
  if a.isFloat || b.isFloat then .float else .int

def meetType (a b : Ty) : Ty :=
  if a = .bool ∧ b = .bool then .bool else meetNumbers a b

end Typing

open Typing (meetType numberType signedType? fieldOf invoked)

def BinOp.resultType : BinOp → Ty → Ty → Ty
  | .pow, _, _ => .double
  | .lt, _, _ | .gt, _, _ | .le, _, _ | .ge, _, _ | .eq, _, _ | .ne, _, _ | .approxEq, _, _ => .bool
  | .threeWay, _, _ => .int
  | _, a, b => meetType a b

/-! ## Nodes -/

namespace Expr

@[simp] theorem ty_ofConstant (span : Span) (value : Constant) :
    (Expr.ofConstant span value).ty = value.ty := rfl

@[simp] theorem ty_retype (e : Expr) (ty : Ty) : (e.retype ty).ty = ty := by
  cases e <;> rfl

theorem eq_of_constant? {e : Expr} {v : Constant} (h : e.constant? = some v) :
    ∃ m, e = .constant m v := by
  cases e <;> simp [constant?] at h
  next m _ => exact ⟨m, by rw [h]⟩

/-- If it is a constant, it has the type of its value. -/
def InType (e : Expr) : Prop :=
  ∀ c, e.constant? = some c → e.ty = c.ty

/-- Neither an assignment nor the left side of one read again. -/
def isPlain : Expr → Bool
  | .assign .. | .assigned _ => false
  | _ => true

/-- A new node over operands, with what its rule sees to. Places are asked for otherwise. -/
inductive Made (σ : Setting) (s : Scope) : Expr → Prop
  | cast {span : Span} {kind : CastKind} {e : Expr} {bank : Bank} :
      e.ty.bank? = some bank → kind.Takes bank → Made σ s (.cast (settled span kind.ty) kind e)
  | intCast {span : Span} {e : Expr} {quiet : Bool} :
      e.ty.isFloat = true → Made σ s (.intCast (settled span .int) e quiet)
  | classCast {span : Span} {e : Expr} {target : ClassId} :
      e.ty.bank?.isSome → Made σ s (.classCast (settled span (.classPtr target)) e target)
  | minus {span : Span} {e : Expr} {ty : Ty} :
      signedType? e.ty = some ty → Made σ s (.unary (settled span ty) .minus e)
  | bitNot {span : Span} {e : Expr} : e.ty.bank? = some .int →
      Made σ s (.unary (settled span (if e.ty.isUnsigned then .uint else .int)) .bitNot e)
  | boolNot {span : Span} {e : Expr} :
      e.ty = .bool → Made σ s (.unary (settled span .bool) .boolNot e)
  | binary {span : Span} {op : BinOp} {l r : Expr} {ty : Ty} {bank b : Bank} :
      l.ty.bank? = some bank → r.ty.bank? = some bank → op.bank? bank = some b →
      ty.bank? = some b → op.resultType l.ty r.ty = ty → ¬ (l.isConstant ∧ r.isConstant) →
      Made σ s (.binary (settled span ty) op l r)
  | logical {span : Span} {op : LogicalOp} {l r : Expr} :
      l.ty = .bool → r.ty = .bool → Made σ s (.logical (settled span .bool) op l r)
  | conditional {span : Span} {cond t f : Expr} {ty : Ty} :
      cond.ty = .bool → (ty = .bool → t.ty = .bool ∧ f.ty = .bool) → Ty.Agree t.ty ty →
      Ty.Agree f.ty ty → Made σ s (.conditional (settled span ty) cond t f)
  | selfRef {span : Span} {cls : ClassId} :
      σ.selfClass? = some cls → Made σ s (.selfRef (settled span (.object cls)))
  | localVar {span : Span} {id : LocalId} :
      id ∈ s.lookupOrder → Made σ s (.localVar (settled span (s.typeOf id)) id)
  | field {span : Span} {object : Expr} {f : Field} :
      object.ty.bank? = some .pointer → σ.Sees object f → Made σ s (fieldOf span object f)
  | invoke {span : Span} {object : Option Expr} {f : Signature} {args : List Expr} :
      (∀ e ∈ object, e.ty.bank? = some .pointer) → args.map Expr.ty = f.params →
      (∀ e ∈ args, e.ty ≠ .void) →
      (object = none → f.kind ≠ .static → σ.selfClass?.isSome ∧ σ.Knows f) →
      Made σ s (invoked span object f args false)
  | special {span : Span} {number : Int32} {args : List Expr} :
      (∀ e ∈ args, e.ty.bank? = some .int) →
      Made σ s (.special (settled span .int) number args false)
  | floatFn {span : Span} {fn : FloatFn} {e : Expr} :
      e.ty.isFloat = true → Made σ s (.floatFn (settled span .double) fn e)
  | random {span : Span} {float : Bool} {rng : String} {low high : Expr} :
      low.ty.bank? = (numberType float).bank? → high.ty.bank? = (numberType float).bank? →
      Made σ s (.random (settled span (numberType float)) float rng low high false)
  | random2 {span : Span} {rng : String} {mask : Expr} :
      mask.ty.bank? = some .int → Made σ s (.random2 (settled span .int) rng mask false)
  | randomPick {span : Span} {float : Bool} {rng : String} {choices : List Expr} :
      (∀ e ∈ choices, e.ty.bank? = (numberType float).bank?) →
      Made σ s (.randomPick (settled span (numberType float)) float rng choices)
  | extremum {span : Span} {op : Extremum} {float : Bool} {args : List Expr} :
      2 ≤ args.length → (∀ e ∈ args, e.ty.isNumeric = true ∧ e.ty.isFloat = float) →
      Made σ s (.extremum (settled span (numberType float)) op args)
  | abs {span : Span} {e : Expr} {ty : Ty} :
      signedType? e.ty = some ty → Made σ s (.abs (settled span ty) e)
  | atan2 {span : Span} {y x : Expr} :
      y.ty.isFloat = true → x.ty.isFloat = true → Made σ s (.atan2 (settled span .double) y x)
  | runtimeState {span : Span} {index : Expr} :
      index.ty.bank? = some .int → Made σ s (.runtimeState (settled span .state) index false)
  | stateLabel {span : Span} {text : String} {names : List String} :
      Made σ s (.stateLabel (settled span .state) text names false)

theorem Made.isPlain {σ : Setting} {s : Scope} {e : Expr} (h : e.Made σ s) : e.isPlain = true := by
  cases h <;> rfl

theorem Made.constant? {σ : Setting} {s : Scope} {e : Expr} (h : e.Made σ s) :
    e.constant? = none := by
  cases h <;> rfl

theorem inType_of_constant? {e : Expr} (h : e.constant? = none) : e.InType := by
  simp [InType, h]

theorem InType.retype {e : Expr} (ty : Ty) : (e.retype ty).InType := by
  cases e with
  | constant =>
    rintro _ ⟨⟩
    rfl
  | _ => exact inType_of_constant? rfl

end Expr

/-! ## Inherited properties -/

namespace Typing

open ActorScript.Expr (Made settled)

/-- Trees with a property that has a bound, say on how often something is found in them, and that
share a bound. -/
inductive Shared (P : Nat → Expr → Prop) : Nat → List Expr → Prop
  | nil {n : Nat} : Shared P n []
  | cons {n k m : Nat} {x : Expr} {xs : List Expr} :
      P n x → Shared P k xs → n + k ≤ m → Shared P m (x :: xs)

namespace Shared

variable {P Q : Nat → Expr → Prop} {n k : Nat} {x y : Expr} {xs ys : List Expr}

theorem one (hx : P n x) : Shared P n [x] :=
  .cons hx (.nil (n := 0)) (Nat.le_refl _)

theorem both (hx : P n x) (hy : P k y) : Shared P (n + k) [x, y] :=
  .cons hx (.one hy) (Nat.le_refl _)

theorem pair (h : Shared P n [x, y]) : ∃ k m, P k x ∧ P m y ∧ k + m ≤ n := by
  obtain _ | ⟨hx, _ | ⟨hy, _, _⟩, _⟩ := h
  exact ⟨_, _, hx, hy, by omega⟩

theorem more (h : Shared P n xs) (hle : n ≤ k) : Shared P k xs := by
  cases h with
  | nil => exact .nil
  | cons hx hxs hsum => exact .cons hx hxs (Nat.le_trans hsum hle)

theorem mono (h : Shared P n xs) (hPQ : ∀ n x, P n x → Q n x) : Shared Q n xs := by
  induction h with
  | nil => exact .nil
  | cons hx _ hsum ih => exact .cons (hPQ _ _ hx) ih hsum

theorem mem (h : Shared P n xs) : ∀ x ∈ xs, ∃ k ≤ n, P k x := by
  induction h with
  | nil => simp
  | cons hx _ hsum ih =>
    refine List.forall_mem_cons.2 ⟨⟨_, by omega, hx⟩, fun x hx => ?_⟩
    obtain ⟨k, hk, hx⟩ := ih x hx
    exact ⟨k, by omega, hx⟩

theorem always {Q : Expr → Prop} (h : Shared (fun _ => Q) n xs) : ∀ x ∈ xs, Q x := by
  intro x hx
  obtain ⟨_, -, hx⟩ := h.mem x hx
  exact hx

theorem sublist (h : Shared P n xs) (hsub : ys.Sublist xs) : Shared P n ys := by
  induction hsub generalizing n with
  | slnil => exact h
  | cons _ _ ih =>
    cases h with
    | cons _ hxs hsum => exact (ih hxs).more (by omega)
  | cons_cons _ _ ih =>
    cases h with
    | cons hx hxs hsum => exact .cons hx (ih hxs) hsum

/-- A tree that takes nothing of the bound may stand anywhere. -/
theorem insert (h : Shared P n (xs ++ ys)) (hx : P 0 x) : Shared P n (xs ++ x :: ys) := by
  induction xs generalizing n with
  | nil => exact .cons hx h (Nat.le_of_eq (Nat.zero_add n))
  | cons _ _ ih =>
    cases h with
    | cons hy hxs hsum => exact .cons hy (ih hxs) hsum

end Shared

/-- New nodes over operands with the property have it for the bound that the operands share, and so
have the constants that come of operands with it, for any bound. If `firm` is set, truth values
count as canonical. -/
structure Hereditary (σ : Setting) (s : Scope) (firm : Bool) (P : Nat → Expr → Prop) : Prop where
  more : ∀ {n k : Nat} {e : Expr}, P n e → n ≤ k → P k e
  constant : ∀ (operands : List Expr) {n k : Nat} {m : Mark} {c : Constant}, m.ty = some c.ty →
    c.ty.bank?.isSome → Shared P n operands →
    (σ.world.InStep →
      (∀ x ∈ operands, ∀ d, x.constant? = some d → x.ty = d.ty ∧ d.Fair firm) → c.Fair firm) →
    P k (.constant m c)
  node : ∀ {n : Nat} {e : Expr}, e.Made σ s → Shared P n e.children → P n e

/-- The property outlasts also what is done to operands themselves. -/
structure Pliant (σ : Setting) (s : Scope) (firm : Bool) (P : Nat → Expr → Prop) : Prop
    extends Hereditary σ s firm P where
  retype : ∀ {n : Nat} {e : Expr} {ty : Ty},
    P n e → σ.world.Widens e.ty ty → e.ty.Reads ty → P n (e.retype ty)
  element : ∀ {n k : Nat} {span : Span} {array place index : Expr} {writable : Bool} {elem : Ty}
    {count : Nat}, P n array → P k index → array.addressOf? = some (writable, place) →
    array.ty = .array elem count → index.ty.bank? = some .int →
    elem.bank? = some .int ∨ elem.bank? = some .float →
    P (n + k) (.element (settled span elem) place index)
  step : ∀ {n : Nat} {span : Span} {op : StepOp} {before : Bool} {x place : Expr},
    P n x → x.addressOf? = some (true, place) → x.ty.isNumeric = true → x.ty ≠ .bool →
    P n (.step (settled span x.ty) op before place)

variable {σ : Setting} {s : Scope} {firm : Bool} {P : Nat → Expr → Prop} {n k : Nat} {e x y : Expr}
  {ty : Ty}

namespace Hereditary

variable (h : Hereditary σ s firm P)

include h

/-- A constant that comes of nothing. -/
theorem fresh (span : Span) {c : Constant} (hc : c.Fair firm) : P n (.ofConstant span c) :=
  h.constant [] rfl hc.inStep.bank (.nil (n := 0)) fun _ _ => hc

theorem each {xs : List Expr} (hxs : Shared P n xs) (hx : x ∈ xs) : P n x := by
  obtain ⟨k, hk, hx⟩ := hxs.mem x hx
  exact h.more hx hk

theorem overOne (hmade : e.Made σ s) (hchildren : e.children = [x]) (hx : P n x) : P n e :=
  h.node hmade (hchildren ▸ .one hx)

theorem overBoth (hmade : e.Made σ s) (hchildren : e.children = [x, y]) (hx : P n x) (hy : P k y) :
    P (n + k) e :=
  h.node hmade (hchildren ▸ .both hx hy)

theorem cast {span : Span} {bank : Bank} (kind : CastKind) (hb : x.ty.bank? = some bank)
    (htakes : kind.Takes bank) (hx : P n x) : P n (.cast (settled span kind.ty) kind x) :=
  h.overOne (.cast hb htakes) rfl hx

/-- Constants have the types of their values besides. -/
theorem typed : Hereditary σ s firm fun n e => P n e ∧ e.InType where
  more he hle := ⟨h.more he.1 hle, he.2⟩
  constant operands n k m c hm hb hoperands hfair := by
    refine ⟨h.constant operands hm hb (hoperands.mono fun _ _ hx => hx.1) hfair, ?_⟩
    rintro _ ⟨⟩
    simp [Expr.ty, Expr.mark, hm]
  node hmade hchildren :=
    ⟨h.node hmade (hchildren.mono fun _ _ hx => hx.1), Expr.inType_of_constant? hmade.constant?⟩

end Hereditary

namespace Pliant

variable (h : Pliant σ s firm P) (he : P n e)

include h he

theorem retype_word (hword : e.ty.isWord = true) (hty : ty.isWord = true) (hbool : ty ≠ .bool) :
    P n (e.retype ty) :=
  h.retype he (.plain (by simp) (Ty.bank_of_isWord hword) (Ty.bank_of_isWord hty))
    (.word hword hty hbool)

theorem retype_float (hfloat : e.ty.isFloat = true) (hty : ty.isFloat = true) :
    P n (e.retype ty) :=
  h.retype he (.plain (by simp) (Ty.bank_of_isFloat hfloat) (Ty.bank_of_isFloat hty))
    (.float hfloat hty)

theorem retype_null (hnull : e.ty = .nullPtr) (hty : ty.isPointer = true) : P n (e.retype ty) :=
  h.retype he (hnull ▸ .null hty) (hnull ▸ .null hty)

omit he in
theorem typed : Pliant σ s firm fun n e => P n e ∧ e.InType where
  toHereditary := h.toHereditary.typed
  retype he hwidens hreads := ⟨h.retype he.1 hwidens hreads, .retype _⟩
  element ha hi hplace hty hint hnum :=
    ⟨h.element ha.1 hi.1 hplace hty hint hnum, Expr.inType_of_constant? rfl⟩
  step hx hplace hnum hbool := ⟨h.step hx.1 hplace hnum hbool, Expr.inType_of_constant? rfl⟩

end Pliant

/-- What is so of all trees, within any bound. -/
def Always (_ : Nat) (_ : Expr) : Prop :=
  True

theorem always : Always 0 e :=
  trivial

theorem pliant_always (s : Scope) : Pliant σ s false Always := by
  refine ⟨⟨?_, ?_, ?_⟩, ?_, ?_, ?_⟩ <;> intros <;> trivial

end Typing

end ActorScript
