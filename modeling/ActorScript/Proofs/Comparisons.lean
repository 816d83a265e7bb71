import ActorScript.Proofs.Compiled
import ActorScript.Proofs.Machine.Operators
import ActorScript.Proofs.Typing.Operations

/-! # Comparisons of numbers, folded and run

Comparing two constants gives a constant, and comparing two values in registers gives code. The
code leaves the number that the constant holds, except where floats are near each other, where
one of them is not a number, and where a word is compared with an unsigned one.
-/

namespace ActorScript

variable {c : Constant} {e : Expr} {op : BinOp}

open ActorScript.Expr (settled)
open Lowering (relationOf outcomeOf)

/-- A constant that is a number, held as its type says. -/
inductive Constant.IsNumber : Constant → Prop
  | word {ty : Ty} (v : Int32) (hnum : ty.isNumeric = true) (hty : ty.isFloat = false) :
      IsNumber ⟨ty, .int v⟩
  | float {ty : Ty} (v : Float) (hty : ty.isFloat = true) : IsNumber ⟨ty, .float v⟩

theorem Constant.IsNumber.isNumeric (h : c.IsNumber) : c.ty.isNumeric = true := by
  cases h with
  | word v hnum => exact hnum
  | @float ty v hty => cases ty <;> simp_all [Ty.isFloat, Ty.isNumeric]

def Constant.datum (c : Constant) (float : Bool) : Datum :=
  if float then .float c.toFloat else .word c.toInt

theorem Constant.bank_datum (c : Constant) (float : Bool) :
    (c.datum float).bank = if float then .float else .int := by
  cases float <;> rfl

def BinOp.isComparison : BinOp → Bool
  | .lt | .gt | .le | .ge | .eq | .ne | .approxEq | .threeWay => true
  | _ => false

/-! ## Trees of comparisons -/

namespace Typing

variable {σ : Setting} {s : Scope} {span : Span} {l r : Expr}

/-- An operand beside another one, made a float if only the other is. -/
def beside (e other : Expr) : Expr :=
  if other.ty.isFloat && !e.ty.isFloat then .cast (settled e.span .double) .float e else e

theorem constant?_beside {other : Expr} (h : e.constant? = none) :
    (beside e other).constant? = none := by
  unfold beside
  split
  · rfl
  · exact h

theorem toFloat_run (span : Span) (hnum : e.ty.isNumeric = true) (hfloat : e.ty.isFloat = false) :
    (toFloat span e).runFrom σ s = (.ok (e.constant?.elim (.cast (settled span .double) .float e)
      fun c => .ofConstant span (.float c.toFloat)), s) := by
  have hbank := Ty.bank_of_isNumeric hnum
  have hname : e.ty ≠ .name := fun h => by simp [h, Ty.isNumeric] at hnum
  cases hc : e.constant? <;> simp [toFloat, hfloat, hname, hbank, hc]

theorem promote_run (hl : l.ty.isNumeric = true) (hr : r.ty.isNumeric = true)
    (hlc : l.constant? = none) (hrc : r.constant? = none) :
    (promote l r).runFrom σ s = (.ok (beside l r, beside r l), s) := by
  unfold promote beside
  cases hlf : l.ty.isFloat <;> cases hrf : r.ty.isFloat <;>
    simp [-bind_pure_comp, runFrom_bind, toFloat_run _ hl, toFloat_run _ hr, hlf, hrf, hlc, hrc]

def folded (op : BinOp) (a b : Constant) : Constant :=
  match op with
  | .threeWay => .int (foldThreeWay a.toFloat b.toFloat)
  | .eq | .ne | .approxEq => .bool (constantsEqual (meetType a.ty b.ty) a b != (op == .ne))
  | _ => .bool (foldOrder op (meetType a.ty b.ty) a b)

/-- Constants that are made floats keep their float values. -/
theorem promote_run_constants {a b : Constant} (ha : a.IsNumber) (hb : b.IsNumber)
    (left right : Span) :
    ∃ a' b', (promote (.ofConstant left a) (.ofConstant right b)).runFrom σ s =
        (.ok (.ofConstant left a', .ofConstant right b'), s) ∧
      a'.toFloat = a.toFloat ∧ b'.toFloat = b.toFloat := by
  have hspan (span : Span) (c : Constant) : (Expr.ofConstant span c).span = span := rfl
  have hconstant (span : Span) (c : Constant) : (Expr.ofConstant span c).constant? = some c := rfl
  have hleft := toFloat_run (σ := σ) (s := s) (e := .ofConstant left a) left ha.isNumeric
  have hright := toFloat_run (σ := σ) (s := s) (e := .ofConstant right b) right hb.isNumeric
  unfold promote
  cases haf : a.ty.isFloat <;> cases hbf : b.ty.isFloat
  · exact ⟨a, b, by simp [haf, hbf], rfl, rfl⟩
  · exact ⟨.float a.toFloat, b,
      by simp [-bind_pure_comp, haf, hbf, hspan, hconstant, runFrom_bind, hleft], rfl, rfl⟩
  · exact ⟨a, .float b.toFloat,
      by simp [-bind_pure_comp, haf, hbf, hspan, hconstant, runFrom_bind, hright], rfl, rfl⟩
  · exact ⟨a, b, by simp [haf, hbf], rfl, rfl⟩

theorem folded_run (hop : op.isComparison = true) {a b : Constant} (ha : a.IsNumber)
    (hb : b.IsNumber) (left right : Span) :
    (binaryOf span op (.ofConstant left a) (.ofConstant right b)).runFrom σ s =
      (.ok (.ofConstant span (folded op a b)), s) := by
  have hnumeric : bothNumeric (.ofConstant left a) (.ofConstant right b) = true :=
    bothNumeric_iff.2 ⟨ha.isNumeric, hb.isNumeric⟩
  have hunify := unify_numbers σ.world ha.isNumeric hb.isNumeric
  have hboth (a b : Constant) :
      bothConstant? (.ofConstant left a) (.ofConstant right b) = some (a, b) := rfl
  cases op with
  | lt | gt | le | ge =>
    simp [-bind_pure_comp, binaryOf, ordering, hnumeric, commonType, runFrom_bind, hunify, hboth,
      folded]
  | eq | ne =>
    simp [-bind_pure_comp, binaryOf, equality, runFrom_bind, hunify, hboth, folded]
  | approxEq =>
    simp [-bind_pure_comp, binaryOf, equality, runFrom_bind, hunify, hboth, folded]
    cases (meetType a.ty b.ty).isFloat <;> rfl
  | threeWay =>
    obtain ⟨a', b', hpromote, ha', hb'⟩ :=
      promote_run_constants (σ := σ) (s := s) ha hb left right
    simp [-bind_pure_comp, binaryOf, threeWay, hnumeric, runFrom_bind, hpromote, hboth, folded,
      ha', hb']
  | _ => cases hop

def comparison (span : Span) (op : BinOp) (l r : Expr) : Expr :=
  .binary (settled span (if op = .threeWay then .int else .bool))
    (if op = .approxEq ∧ (meetType l.ty r.ty).isFloat = false then .eq else op)
    (beside l r) (beside r l)

theorem comparison_run (hop : op.isComparison = true) (hl : l.ty.isNumeric = true)
    (hr : r.ty.isNumeric = true) (hlc : l.constant? = none) (hrc : r.constant? = none) :
    (binaryOf span op l r).runFrom σ s = (.ok (comparison span op l r), s) := by
  have hunify := unify_numbers σ.world hl hr
  have hpromote := promote_run (σ := σ) (s := s) hl hr hlc hrc
  have hboth : bothConstant? l r = none := by simp [bothConstant?, hlc]
  have hboth' : bothConstant? (beside l r) (beside r l) = none := by
    simp [bothConstant?, constant?_beside hlc]
  cases op with
  | lt | gt | le | ge =>
    simp [-bind_pure_comp, binaryOf, ordering, bothNumeric, commonType, hboth, runFrom_bind,
      hpromote, hl, hr, comparison]
  | eq | ne | approxEq =>
    simp [-bind_pure_comp, binaryOf, equality, hboth, runFrom_bind, hpromote, hunify, comparison]
  | threeWay =>
    simp [-bind_pure_comp, binaryOf, threeWay, bothNumeric, hboth', runFrom_bind, hpromote, hl, hr,
      comparison]
  | _ => cases hop

end Typing

/-! ## Code of comparisons -/

def compared (op : BinOp) (a b : Constant) : Int32 :=
  let float := a.ty.isFloat || b.ty.isFloat
  let unsigned := a.ty.isUnsigned && b.ty.isUnsigned
  match op with
  | .threeWay => threeWayOf unsigned (a.datum float) (b.datum float)
  | .eq | .ne | .approxEq => if equalityHolds op (a.datum float) (b.datum float) then 1 else 0
  | _ => if orderHolds op unsigned (a.datum float) (b.datum float) then 1 else 0

section Run

open Typing (beside comparison)

variable {P : Program} {t : Target} {c : Context} {env : LocalId → Datum} {l r : Expr}
  {a b : Constant}

theorem beside_settled (other : Expr) (h : Settled c false e) (hnum : e.ty.isNumeric = true) :
    Settled c false (beside e other) := by
  unfold beside
  split
  next hfloat =>
    have hbank := Ty.bank_of_isNumeric hnum
    simp only [Bool.and_eq_true, Bool.not_eq_true'] at hfloat
    exact .cast h (by simpa [hfloat.2] using hbank) rfl rfl
  next => exact h

theorem bank_beside (other : Expr) (hnum : e.ty.isNumeric = true) :
    (beside e other).ty.bank? =
      some (if e.ty.isFloat || other.ty.isFloat then .float else .int) := by
  have hbank := Ty.bank_of_isNumeric hnum
  unfold beside
  cases he : e.ty.isFloat <;> cases ho : other.ty.isFloat <;> simp [he] at hbank ⊢ <;>
    first | exact hbank | rfl

theorem isPooled_beside (other : Expr) (h : e.isPooled = false) :
    (beside e other).isPooled = false := by
  unfold beside
  split
  · rfl
  · exact h

theorem isUnsigned_beside {l r : Expr} :
    ((beside l r).ty.isUnsigned && (beside r l).ty.isUnsigned) =
      (l.ty.isUnsigned && r.ty.isUnsigned) := by
  have hfloat {ty : Ty} (h : ty.isFloat = true) : ty.isUnsigned = false := by
    cases ty <;> simp_all [Ty.isFloat, Ty.isUnsigned]
  unfold beside
  cases hl : l.ty.isFloat <;> cases hr : r.ty.isFloat <;>
    simp [hl, hr, hfloat]

theorem beside_computes (other : Expr) (h : Settled c false e) (hk : t.kind = c.kind)
    (ha : a.IsNumber) (hty : e.ty = a.ty) (hv : Computes P t c env e.lower (a.datum a.ty.isFloat)) :
    Computes P t c env (beside e other).lower (a.datum (a.ty.isFloat || other.ty.isFloat)) := by
  have hlowers : Lowers t c e.lower (e.footprint c) := h.performs hk
  unfold beside
  rw [hty]
  cases ha with
  | float v hfloat => simpa [hfloat] using hv
  | @word ty v hnum hfloat =>
    cases hother : other.ty.isFloat with
    | false => simpa [hfloat] using hv
    | true =>
      have hcast := castToFloat_computes hlowers (u := v)
        (by simpa [hfloat, Constant.datum, Constant.toInt] using hv)
        (by simpa [Expr.footprint, hty, hfloat] using Ty.bank_of_isNumeric hnum) e.ty
      simpa [hfloat, Expr.lower, Constant.datum, Constant.toFloat, wordToFloat, hty] using hcast

theorem comparison_computes (hop : op.isComparison = true) (ha : a.IsNumber) (hb : b.IsNumber)
    (span : Span) (hl : Settled c false l) (hr : Settled c false r) (hlty : l.ty = a.ty)
    (hrty : r.ty = b.ty) (hlp : l.isPooled = false) (hk : t.kind = c.kind)
    (hlv : Computes P t c env l.lower (a.datum a.ty.isFloat))
    (hrv : Computes P t c env r.lower (b.datum b.ty.isFloat)) :
    Computes P t c env (comparison span op l r).lower (.word (compared op a b)) := by
  have hln : l.ty.isNumeric = true := hlty ▸ ha.isNumeric
  have hrn : r.ty.isNumeric = true := hrty ▸ hb.isNumeric
  have hleft : Lowers t c (beside l r).lower _ := (beside_settled r hl hln).performs hk
  have hright : Lowers t c (beside r l).lower _ := (beside_settled l hr hrn).performs hk
  have hlv' := beside_computes r hl hk ha hlty hlv
  have hrv' := beside_computes l hr hk hb hrty hrv
  have hlbank := bank_beside r hln
  have hrbank := bank_beside l hrn
  have hunsigned := isUnsigned_beside (l := l) (r := r)
  rw [hlty, hrty] at hlbank hrbank hunsigned
  rw [hrty] at hlv'
  rw [hlty] at hrv'
  rw [Bool.or_comm] at hrbank hrv'
  rw [← Constant.bank_datum a] at hlbank
  rw [← Constant.bank_datum b] at hrbank
  have hsame : (a.datum (a.ty.isFloat || b.ty.isFloat)).bank =
      (b.datum (a.ty.isFloat || b.ty.isFloat)).bank := by
    rw [Constant.bank_datum, Constant.bank_datum]
  have hpooled := isPooled_beside r hlp
  have hordered (op : BinOp) := order_computes hleft hright hlbank hrbank hlv' hrv' op
    (beside l r).ty (beside r l).ty hsame (by simp [Expr.footprint, hpooled])
  have hequal (op : BinOp) :=
    equality_computes hleft hright hlbank hrbank hlv' hrv' op hsame (.inl hpooled)
  have hthreeWay := threeWay_computes hleft hright hlbank hrbank hlv' hrv' (beside l r).ty
    (beside r l).ty hsame (by simp [Expr.footprint, hpooled])
  simp only [hunsigned] at hordered hthreeWay
  cases op with
  | lt => exact hordered .lt
  | gt => exact hordered .gt
  | le => exact hordered .le
  | ge => exact hordered .ge
  | eq => exact hequal .eq
  | ne => exact hequal .ne
  | approxEq =>
    have hmeet := Typing.isFloat_meetType hln hrn
    rw [hlty, hrty] at hmeet
    have hnode : (comparison span .approxEq l r).lower = Lowering.equality
        (if a.ty.isFloat || b.ty.isFloat then .approxEq else .eq) (beside l r).lower
        (beside r l).lower := by
      cases hfloat : a.ty.isFloat || b.ty.isFloat <;>
        simp [comparison, hlty, hrty, hmeet, hfloat, Expr.lower, Lowering.binary]
    rw [hnode]
    cases hfloat : a.ty.isFloat || b.ty.isFloat with
    | true => exact hequal .approxEq
    | false =>
      have hvalue : Datum.word (compared .approxEq a b) = .ofBool (equalityHolds .eq
          (a.datum (a.ty.isFloat || b.ty.isFloat)) (b.datum (a.ty.isFloat || b.ty.isFloat))) := by
        rw [hfloat]
        simp [compared, hfloat]
        rfl
      rw [hvalue]
      exact hequal .eq
  | threeWay => exact hthreeWay
  | _ => cases hop

end Run

/-! ## Where the two differ -/

/-- An unsigned word that is greater than any signed one, but not if it is read as signed. -/
def Constant.Wraps (a b : Constant) : Prop :=
  a.ty.isUnsigned = true ∧ b.ty.isUnsigned = false ∧ a.toInt < 0 ∧ a.toInt ≤ b.toInt

/-- The code of a comparison leaves another number than the constant that it folds to. -/
def Departs (op : BinOp) (a b : Constant) : Prop :=
  if a.ty.isFloat || b.ty.isFloat then
    (op = .eq ∨ op = .ne) ∧ nearlyEqual a.toFloat b.toFloat ≠ (a.toFloat == b.toFloat) ∨
      (op = .gt ∨ op = .ge) ∧ (a.toFloat.isNaN = true ∨ b.toFloat.isNaN = true)
  else
    op = .threeWay ∧ (a.Wraps b ∨ b.Wraps a)

theorem truth_eq_iff {p q : Bool} :
    (if p then (1 : Int32) else 0) = (if q then 1 else 0) ↔ p = q := by
  cases p <;> cases q <;> decide

/-- Not being less or equal is being greater, and not being less is being greater or equal, but for
what is not a number. -/
theorem not_le_eq_gt_iff {x y : Float} :
    ((!decide (x ≤ y)) = decide (y < x) ↔ ¬ (x.isNaN = true ∨ y.isNaN = true)) ∧
      ((!decide (x < y)) = decide (y ≤ x) ↔ ¬ (x.isNaN = true ∨ y.isNaN = true)) := by
  rw [← floatOrder_eq_none, Bool.eq_iff_iff, Bool.eq_iff_iff]
  simp only [Bool.not_eq_true', decide_eq_false_iff_not, decide_eq_true_eq, float_le_iff,
    float_lt_iff, floatOrder_swap x y]
  rcases floatOrder x y with _ | (_ | _ | _) <;> simp

/-- Three-way comparisons of floats come out alike, also for what is not a number. -/
theorem foldThreeWay_eq (x y : Float) (unsigned : Bool) :
    threeWayOf unsigned (.float x) (.float y) = Typing.foldThreeWay x y := by
  unfold threeWayOf Typing.foldThreeWay
  simp only [Relation.between, Relation.ofFloats, decide_eq_true_eq, float_lt_iff, float_le_iff,
    float_beq_iff]
  rcases floatOrder x y with _ | (_ | _ | _) <;> simp

def signOf (x y : Int) : Int32 :=
  if x < y then -1 else if x = y then 0 else 1

theorem signOf_eq_iff {x y x' y' : Int} :
    signOf x y = signOf x' y' ↔ (x < y ↔ x' < y') ∧ (x = y ↔ x' = y') := by
  unfold signOf
  split <;> split <;> (try split) <;> (try split) <;> simp <;> omega

theorem foldThreeWay_words (ty ty' : Ty) (v w : Int32) :
    Typing.foldThreeWay (wordToFloat ty v) (wordToFloat ty' w) =
      signOf (wordValue ty v) (wordValue ty' w) := by
  have hlt : wordToFloat ty v < wordToFloat ty' w ↔ wordValue ty v < wordValue ty' w := by
    rw [float_lt_iff, floatOrder_wordToFloat, Option.some.injEq, Int.compare_eq_lt]
  have heq : (wordToFloat ty v == wordToFloat ty' w) = true ↔ wordValue ty v = wordValue ty' w := by
    rw [float_beq_iff, floatOrder_wordToFloat, Option.some.injEq, Int.compare_eq_eq]
  simp only [Typing.foldThreeWay, signOf, hlt, heq]

theorem signOf_eq_le (x y : Int) :
    (if x < y then -1 else if x ≤ y then 0 else 1) = signOf x y := by
  unfold signOf
  by_cases hlt : x < y
  · rw [if_pos hlt, if_pos hlt]
  · have hle : x ≤ y ↔ x = y := by omega
    rw [if_neg hlt, if_neg hlt]
    simp only [hle]

/-- Three-way comparisons of words, both read as unsigned or both as signed. -/
theorem threeWayOf_words (v w : Int32) (unsigned : Bool) :
    threeWayOf unsigned (.word v) (.word w) =
      if unsigned then signOf v.toUInt32.toNat w.toUInt32.toNat else signOf v.toInt w.toInt := by
  cases unsigned with
  | true =>
    simp only [threeWayOf, Relation.between, Relation.ofUnsigned, if_true, decide_eq_true_eq,
      UInt32.lt_iff_toNat_lt, UInt32.le_iff_toNat_le, ← signOf_eq_le, Int.ofNat_lt, Int.ofNat_le]
  | false =>
    simp only [threeWayOf, Relation.between, Relation.ofWords, Bool.false_eq_true, if_false,
      decide_eq_true_eq, Int32.lt_iff_toInt_lt, Int32.le_iff_toInt_le, ← signOf_eq_le]

/-- Words are compared alike, but for an unsigned one that wraps beside a signed one. -/
theorem foldThreeWay_eq_words {ty ty' : Ty} (v w : Int32) :
    Typing.foldThreeWay (wordToFloat ty v) (wordToFloat ty' w) =
        threeWayOf (ty.isUnsigned && ty'.isUnsigned) (.word v) (.word w) ↔
      ¬ (Constant.Wraps ⟨ty, .int v⟩ ⟨ty', .int w⟩ ∨ Constant.Wraps ⟨ty', .int w⟩ ⟨ty, .int v⟩) := by
  have hv := toUInt32_toNat v
  have hw := toUInt32_toNat w
  have hvlow := v.le_toInt
  have hwlow := w.le_toInt
  have hvhigh := v.toInt_lt
  have hwhigh := w.toInt_lt
  rw [foldThreeWay_words, threeWayOf_words]
  simp only [Constant.Wraps, Constant.toInt, wordValue, Int32.lt_iff_toInt_lt,
    Int32.le_iff_toInt_le, Int32.toInt_zero]
  cases ty.isUnsigned <;> cases ty'.isUnsigned <;>
    simp only [Bool.and_true, Bool.and_false, Bool.false_eq_true, if_true, if_false, signOf_eq_iff,
      true_and, false_and, and_false, or_false, false_or, not_false_eq_true, reduceCtorEq,
      and_self]
  · split at hw <;> omega
  · split at hv <;> omega

/-! ## The two agree -/

section Agree

variable {a b : Constant}

theorem Constant.toInt_bool (p : Bool) : (Constant.bool p).toInt = if p then 1 else 0 := rfl

/-- Words are put in the same order, both signed or both unsigned. -/
theorem foldOrder_words {meet : Ty} (hfloat : meet.isFloat = false)
    (ha : a.toUInt = a.toInt.toUInt32) (hb : b.toUInt = b.toInt.toUInt32)
    (hop : op = .lt ∨ op = .gt ∨ op = .le ∨ op = .ge) :
    Typing.foldOrder op meet a b =
      orderHolds op meet.isUnsigned (.word a.toInt) (.word b.toInt) := by
  unfold Typing.foldOrder orderHolds Relation.between
  rw [hfloat, if_neg Bool.false_ne_true, ha, hb, Bool.eq_iff_iff]
  cases meet.isUnsigned
  · rcases hop with rfl | rfl | rfl | rfl <;> simp [relationOf, Relation.ofWords]
  · rcases hop with rfl | rfl | rfl | rfl <;> simp [relationOf, Relation.ofUnsigned]

/-- Floats are put in the same order unless one is not a number and the operator is lowered to
the opposite of another. -/
theorem foldOrder_floats {meet : Ty} (hfloat : meet.isFloat = true) {unsigned : Bool}
    (hop : op = .lt ∨ op = .gt ∨ op = .le ∨ op = .ge) :
    Typing.foldOrder op meet a b =
        orderHolds op unsigned (.float a.toFloat) (.float b.toFloat) ↔
      ¬ ((op = .gt ∨ op = .ge) ∧ (a.toFloat.isNaN = true ∨ b.toFloat.isNaN = true)) := by
  unfold Typing.foldOrder orderHolds Relation.between
  rw [hfloat, if_pos rfl]
  rcases hop with rfl | rfl | rfl | rfl
  · simp [relationOf, Relation.ofFloats]
  · rw [eq_comm]
    simpa [relationOf, Relation.ofFloats] using not_le_eq_gt_iff.1
  · simp [relationOf, Relation.ofFloats]
  · rw [eq_comm]
    simpa [relationOf, Relation.ofFloats] using not_le_eq_gt_iff.2

/-- Both tests for equality are negated alike. -/
theorem folded_test_iff (hop : op = .eq ∨ op = .ne ∨ op = .approxEq) (p : Bool) (v w : Datum) :
    (Constant.bool (p != (op == .ne))).toInt = (if equalityHolds op v w then 1 else 0) ↔
      p = v.equals (outcomeOf op / 2 % 2 = 1) w := by
  have hnegated : (op == .ne) = decide (outcomeOf op % 2 = 1) := by
    rcases hop with rfl | rfl | rfl <;> rfl
  rw [Constant.toInt_bool, truth_eq_iff, equalityHolds, hnegated]
  cases decide (outcomeOf op % 2 = 1) <;> simp

theorem folded_eq_compared_words (hop : op.isComparison = true) {ty ty' : Ty} {v w : Int32}
    (ha : Constant.IsNumber ⟨ty, .int v⟩) (hb : Constant.IsNumber ⟨ty', .int w⟩)
    (hty : ty.isFloat = false) (hty' : ty'.isFloat = false) :
    (Typing.folded op ⟨ty, .int v⟩ ⟨ty', .int w⟩).toInt = compared op ⟨ty, .int v⟩ ⟨ty', .int w⟩ ↔
      ¬ Departs op ⟨ty, .int v⟩ ⟨ty', .int w⟩ := by
  have hfloat := Typing.isFloat_meetType ha.isNumeric hb.isNumeric
  have hunsigned := Typing.isUnsigned_meetType ha.isNumeric hb.isNumeric
  simp only [hty, hty', Bool.or_self] at hfloat hunsigned
  cases op with
  | threeWay =>
    simp only [Typing.folded, compared, Departs, hty, hty', Bool.or_self, Constant.datum,
      Bool.false_eq_true, if_false, true_and, Constant.toInt, Constant.int]
    exact foldThreeWay_eq_words v w
  | lt | gt | le | ge =>
    simp only [Typing.folded, compared, Departs, hty, hty', Bool.or_self, Constant.datum,
      Bool.false_eq_true, if_false, Constant.toInt_bool, truth_eq_iff, ← hunsigned]
    rw [foldOrder_words hfloat rfl rfl (by simp)]
    simp
  | eq | ne | approxEq =>
    rw [Typing.folded, compared, folded_test_iff (by simp)]
    simp [Departs, hty, hty', Constant.datum, Typing.constantsEqual, hfloat, Datum.equals]
  | _ => cases hop

theorem folded_eq_compared_floats (hop : op.isComparison = true) (ha : a.IsNumber) (hb : b.IsNumber)
    (hfloat : (a.ty.isFloat || b.ty.isFloat) = true) :
    (Typing.folded op a b).toInt = compared op a b ↔ ¬ Departs op a b := by
  have hmeet := Typing.isFloat_meetType ha.isNumeric hb.isNumeric
  rw [hfloat] at hmeet
  have hequal : Typing.constantsEqual (Typing.meetType a.ty b.ty) a b =
      nearlyEqual a.toFloat b.toFloat := by
    cases ha <;> cases hb <;> simp [Typing.constantsEqual, hmeet, nearlyEqual]
  cases op with
  | threeWay =>
    simp [Typing.folded, compared, Departs, hfloat, Constant.datum, foldThreeWay_eq, Constant.toInt,
      Constant.int]
  | lt | gt | le | ge =>
    simp only [Typing.folded, compared, Departs, hfloat, Constant.datum, if_true,
      Constant.toInt_bool, truth_eq_iff]
    rw [foldOrder_floats hmeet (by simp)]
    simp
  | eq | ne | approxEq =>
    rw [Typing.folded, compared, folded_test_iff (by simp)]
    simp [Departs, hfloat, Constant.datum, hequal, Datum.equals, outcomeOf, approximately]
  | _ => cases hop

/-- A comparison of two numbers folds to what its code leaves, unless it departs from it. -/
theorem folded_eq_compared (hop : op.isComparison = true) (ha : a.IsNumber) (hb : b.IsNumber) :
    (Typing.folded op a b).toInt = compared op a b ↔ ¬ Departs op a b := by
  cases hfloat : a.ty.isFloat || b.ty.isFloat with
  | true => exact folded_eq_compared_floats hop ha hb hfloat
  | false =>
    obtain ⟨hty, hty'⟩ := Bool.or_eq_false_iff.1 hfloat
    cases ha with
    | float v h => simp [h] at hty
    | word v hnum =>
      cases hb with
      | float w h => simp [h] at hty'
      | word w hnum' =>
        exact folded_eq_compared_words hop (.word v hnum hty) (.word w hnum' hty') hty hty'

end Agree

/-- A comparison of two constants folds to the number that its code leaves for two values equal to
them, exactly if it does not depart from it: near floats count as equal only in a constant, `>` and
`>=` hold of what is not a number only in code, and an unsigned word that wraps beside a signed one
has another sign in a three-way comparison. -/
theorem comparison_folds_as_run_iff (P : Program) {t : Target} {c : Context} {env : LocalId → Datum}
    (σ : Setting) (s : Scope) (span left right : Span) {op : BinOp} (hop : op.isComparison = true)
    {a b : Constant} (ha : a.IsNumber) (hb : b.IsNumber) {l r : Expr} (hl : Settled c false l)
    (hr : Settled c false r) (hlty : l.ty = a.ty) (hrty : r.ty = b.ty) (hlp : l.isPooled = false)
    (hrc : r.constant? = none) (hk : t.kind = c.kind)
    (hlv : Computes P t c env l.lower (a.datum a.ty.isFloat))
    (hrv : Computes P t c env r.lower (b.datum b.ty.isFloat)) :
    (Typing.binaryOf span op (.ofConstant left a) (.ofConstant right b)).runFrom σ s =
        (.ok (.ofConstant span (Typing.folded op a b)), s) ∧
      (Typing.binaryOf span op l r).runFrom σ s = (.ok (Typing.comparison span op l r), s) ∧
      (Typing.comparison span op l r).ty = (Typing.folded op a b).ty ∧
      Computes P t c env (Typing.comparison span op l r).lower (.word (compared op a b)) ∧
      ((Typing.folded op a b).toInt = compared op a b ↔ ¬ Departs op a b) := by
  have hlc : l.constant? = none := by
    cases l with
    | constant => cases hlp
    | _ => rfl
  have hln : l.ty.isNumeric = true := hlty ▸ ha.isNumeric
  have hrn : r.ty.isNumeric = true := hrty ▸ hb.isNumeric
  refine ⟨Typing.folded_run hop ha hb left right, Typing.comparison_run hop hln hrn hlc hrc, ?_,
    comparison_computes hop ha hb span hl hr hlty hrty hlp hk hlv hrv, folded_eq_compared hop ha hb⟩
  cases op with
  | lt | gt | le | ge | eq | ne | approxEq | threeWay => rfl
  | _ => cases hop

/-- A double and an unsigned word, in variables. -/
theorem comparison_folds_as_run_large :
    let a : Constant := .float 2.5
    let b : Constant := .uint 4294967295
    let c : Context := .ofBody {} {} { locals := #[⟨"x", .double, true⟩, ⟨"u", .uint, true⟩] }
    let x : Expr := .localVar (settled ⟨0, 1⟩ .double) 0
    let u : Expr := .localVar (settled ⟨5, 6⟩ .uint) 1
    let env : LocalId → Datum := fun v => if v = 0 then .float 2.5 else .word (-1)
    ∀ P, (Typing.binaryOf ⟨0, 6⟩ .ge x u).runFrom c.setting {} =
        (.ok (Typing.comparison ⟨0, 6⟩ .ge x u), {}) ∧
      Computes P ⟨{}, .static⟩ c env (Typing.comparison ⟨0, 6⟩ .ge x u).lower
        (.word (compared .ge a b)) ∧
      (Typing.folded .ge a b).toInt = compared .ge a b := by
  intro a b c x u env P
  have hx : Computes P ⟨{}, .static⟩ c env x.lower (.float 2.5) :=
    @variable_computes P ⟨{}, .static⟩ c env 0 rfl
  have hu : Computes P ⟨{}, .static⟩ c env u.lower (.word (-1)) :=
    @variable_computes P ⟨{}, .static⟩ c env 1 rfl
  have hxs : Settled c false x := .localVar (m := settled ⟨0, 1⟩ .double) rfl
  have hus : Settled c false u := .localVar (m := settled ⟨5, 6⟩ .uint) rfl
  have hagree : ¬ Departs .ge a b := by
    unfold Departs Constant.Wraps
    decide +kernel
  have hop : BinOp.isComparison .ge = true := rfl
  obtain ⟨-, htree, -, hruns, hiff⟩ := comparison_folds_as_run_iff P c.setting {} ⟨0, 6⟩
    ⟨0, 1⟩ ⟨5, 6⟩ hop (a := a) (b := b) (.float _ rfl) (.word _ rfl rfl) hxs hus rfl rfl rfl rfl rfl
    hx hu
  exact ⟨htree, hruns, hiff.2 hagree⟩

/-- Two floats that are near each other are equal as constants, and not in code. -/
theorem near_floats_fold_equal :
    (parseExpression "1.0 == 1.000001").toOption.map
        (fun e => ((evaluateConstant {} {} e).toOption.map fun p => p.1.toInt)) = some (some 1) ∧
      compared .eq (.float 1.0) (.float 1.000001) = 0 := by
  decide +kernel

end ActorScript
