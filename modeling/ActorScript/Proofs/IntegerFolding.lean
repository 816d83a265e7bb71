import ActorScript.Grammar.Expression
import ActorScript.Proofs.Machine.Words
import ActorScript.Proofs.Typing.Run
import ActorScript.Typing.Expression
import Mathlib.Data.Int.Init

/-! # Expressions of integer literals

Typing carries out every operation on integer literals at once. The number it comes to is that of
the expression read as arithmetic on signed or unsigned words, and only a division by zero is
rejected.
-/

namespace ActorScript

variable {unsigned : Bool}

/-! ## Expressions and their numbers -/

inductive IntUnary where
  | plus | minus | complement

inductive IntBinary where
  | add | sub | mul | div | mod | and | or | xor | shl | shr | ushr
  deriving DecidableEq

inductive IntTree where
  | literal (span : Span) (n : UInt32)
  | unary (span : Span) (op : IntUnary) (x : IntTree)
  | binary (span : Span) (op : IntBinary) (l r : IntTree)

def IntUnary.op : IntUnary → UnaryOp
  | plus => .plus
  | minus => .minus
  | complement => .bitNot

def IntBinary.op : IntBinary → BinOp
  | add => .add
  | sub => .sub
  | mul => .mul
  | div => .div
  | mod => .mod
  | and => .bitAnd
  | or => .bitOr
  | xor => .bitXor
  | shl => .shl
  | shr => .shr
  | ushr => .ushr

/-- The constant of a literal, which is unsigned from 2 ^ 31 on. -/
def literalConstant (n : UInt32) : Constant :=
  if n.toNat < 2 ^ 31 then .int n.toInt32 else .uint n

def IntTree.toExpr : IntTree → Expr
  | literal span n => .ofConstant span (literalConstant n)
  | unary span op x => .unary { span } op.op x.toExpr
  | binary span op l r => .binary { span } op.op l.toExpr r.toExpr

/-- A number of signed or unsigned words. -/
structure WordNumber where
  unsigned : Bool
  value : Int
  deriving DecidableEq

def WordNumber.ty (n : WordNumber) : Ty :=
  if n.unsigned then .uint else .int

def IntUnary.result (op : IntUnary) (unsigned : Bool) (x : Int) : Int :=
  match op with
  | plus => x
  | minus => wrapTo unsigned (-x)
  | complement => wrapTo unsigned (-x - 1)

/-- Arithmetic in the signedness where two numbers meet. A division by zero has no number. -/
def IntBinary.result? (op : IntBinary) (unsigned : Bool) (x y : Int) : Option Int :=
  let a := wrapTo unsigned x
  let b := wrapTo unsigned y
  let amount := (y % 32).toNat
  match op with
  | add => some (wrapTo unsigned (a + b))
  | sub => some (wrapTo unsigned (a - b))
  | mul => some (wrapTo unsigned (a * b))
  | div => if y = 0 then none else some (wrapTo unsigned (a.tdiv b))
  | mod => if y = 0 then none else some (wrapTo unsigned (a.tmod b))
  | and => some (wrapTo unsigned ((wrapTo true x).toNat &&& (wrapTo true y).toNat : Nat))
  | or => some (wrapTo unsigned ((wrapTo true x).toNat ||| (wrapTo true y).toNat : Nat))
  | xor => some (wrapTo unsigned ((wrapTo true x).toNat ^^^ (wrapTo true y).toNat : Nat))
  | shl => some (wrapTo unsigned (x * 2 ^ amount))
  | shr => some (wrapTo unsigned (wrapTo false x / 2 ^ amount))
  | ushr => some (wrapTo unsigned (wrapTo true x / 2 ^ amount))

def IntTree.eval? : IntTree → Option WordNumber
  | literal _ n => some ⟨decide (2 ^ 31 ≤ n.toNat), n.toNat⟩
  | unary _ op x => x.eval?.map fun a => ⟨a.unsigned, op.result a.unsigned a.value⟩
  | binary _ op l r =>
      l.eval?.bind fun a => r.eval?.bind fun b =>
        (op.result? (a.unsigned && b.unsigned) a.value b.value).map
          (⟨a.unsigned && b.unsigned, ·⟩)

/-- The expression is or has a part. -/
inductive IntTree.Part (t : IntTree) : IntTree → Prop
  | self : Part t t
  | operand {span : Span} {op : IntUnary} {x : IntTree} : Part t x → Part t (.unary span op x)
  | left {span : Span} {op : IntBinary} {l r : IntTree} : Part t l → Part t (.binary span op l r)
  | right {span : Span} {op : IntBinary} {l r : IntTree} : Part t r → Part t (.binary span op l r)

def IntTree.DividesByZero (t : IntTree) : Prop :=
  ∃ span op l r n, (op = IntBinary.div ∨ op = .mod) ∧ (IntTree.binary span op l r).Part t ∧
    r.eval? = some n ∧ n.value = 0

/-! ## Operations on the words of numbers -/

/-- What folding does to the words of two numbers. -/
def IntBinary.word (op : IntBinary) (unsigned : Bool) (v w : Int32) : Int32 :=
  match op with
  | add | sub | mul | div | mod =>
      if unsigned then (Typing.wordArithmetic op.op v.toUInt32 w.toUInt32).toInt32
      else Typing.intArithmetic op.op v w
  | and | or | xor | shl | shr | ushr => Typing.foldBits op.op v w

def IntUnary.word (op : IntUnary) (v : Int32) : Int32 :=
  match op with
  | plus => v
  | minus => -v
  | complement => ~~~v

theorem IntUnary.word_ofInt (op : IntUnary) (unsigned : Bool) (x : Int) :
    op.word (Int32.ofInt x) = Int32.ofInt (op.result unsigned x) := by
  cases op with
  | plus => rfl
  | minus => rw [result, ofInt_wrapTo, Int32.ofInt_neg, word]
  | complement =>
    rw [result, ofInt_wrapTo, Int32.ofInt_sub, Int32.ofInt_neg, word, Int32.not_eq_neg_sub]
    rfl

theorem toNat_wrapTo (x : Int) : (wrapTo true x).toNat = (Int32.ofInt x).toUInt32.toNat := by
  rw [← toNat_ofInt, Int.toNat_natCast]

variable {op : IntBinary}

theorem IntBinary.word_ofInt {x y z : Int} (h : op.result? unsigned x y = some z) :
    op.word unsigned (Int32.ofInt x) (Int32.ofInt y) = Int32.ofInt z := by
  cases op with
  | add =>
    cases h
    rw [ofInt_wrapTo, Int32.ofInt_add, ofInt_wrapTo, ofInt_wrapTo]
    cases unsigned <;> rfl
  | sub =>
    cases h
    rw [ofInt_wrapTo, Int32.ofInt_sub, ofInt_wrapTo, ofInt_wrapTo]
    cases unsigned <;> rfl
  | mul =>
    cases h
    rw [ofInt_wrapTo, Int32.ofInt_mul, ofInt_wrapTo, ofInt_wrapTo]
    cases unsigned <;> rfl
  | div =>
    obtain ⟨-, hz⟩ := Option.ite_none_left_eq_some.1 h
    cases hz
    rw [ofInt_wrapTo]
    cases unsigned with
    | false =>
      have hx := inRange_wrapTo false x
      have hy := inRange_wrapTo false y
      rw [Int32.ofInt_tdiv hx.1 (Int.le_of_lt_add_one hx.2) hy.1 (Int.le_of_lt_add_one hy.2),
        ofInt_wrapTo, ofInt_wrapTo]
      rfl
    | true =>
      rw [← toNat_ofInt, ← toNat_ofInt, ← Int.ofNat_tdiv, ← UInt32.toNat_div, ← toInt32_eq_ofInt]
      rfl
  | mod =>
    obtain ⟨-, hz⟩ := Option.ite_none_left_eq_some.1 h
    cases hz
    rw [ofInt_wrapTo]
    cases unsigned with
    | false =>
      have hx := inRange_wrapTo false x
      have hy := inRange_wrapTo false y
      rw [Int32.ofInt_tmod hx.1 (Int.le_of_lt_add_one hx.2) hy.1 (Int.le_of_lt_add_one hy.2),
        ofInt_wrapTo, ofInt_wrapTo]
      rfl
    | true =>
      rw [← toNat_ofInt, ← toNat_ofInt, ← Int.ofNat_tmod, ← UInt32.toNat_mod, ← toInt32_eq_ofInt]
      rfl
  | and =>
    cases h
    rw [ofInt_wrapTo, toNat_wrapTo, toNat_wrapTo, ← UInt32.toNat_and, ← toInt32_eq_ofInt]
    rfl
  | or =>
    cases h
    rw [ofInt_wrapTo, toNat_wrapTo, toNat_wrapTo, ← UInt32.toNat_or, ← toInt32_eq_ofInt]
    rfl
  | xor =>
    cases h
    rw [ofInt_wrapTo, toNat_wrapTo, toNat_wrapTo, ← UInt32.toNat_xor, ← toInt32_eq_ofInt]
    rfl
  | shl =>
    cases h
    rw [word, op, Typing.foldBits, shiftLeft_eq_mul, emod_ofInt, ofInt_wrapTo, Int32.ofInt_mul]
    rfl
  | shr =>
    cases h
    rw [ofInt_wrapTo, ← toInt_ofInt, ← emod_ofInt, ← toInt_shiftRight, Int32.ofInt_toInt]
    rfl
  | ushr =>
    cases h
    rw [ofInt_wrapTo, word, op, Typing.foldBits, toInt32_eq_ofInt, toNat_shiftRight, emod_ofInt,
      Int.natCast_div, toNat_ofInt]
    rfl

/-! ## Numbers of expressions -/

theorem IntUnary.inRange_result (op : IntUnary) {x : Int} (h : InRange unsigned x) :
    InRange unsigned (op.result unsigned x) := by
  cases op with
  | plus => exact h
  | minus => exact inRange_wrapTo ..
  | complement => exact inRange_wrapTo ..

theorem IntBinary.result?_eq_none {x y : Int} :
    op.result? unsigned x y = none ↔ (op.op = .div ∨ op.op = .mod) ∧ y = 0 := by
  cases op <;> simp [result?, IntBinary.op]

theorem IntBinary.inRange_result? {x y z : Int} (h : op.result? unsigned x y = some z) :
    InRange unsigned z := by
  have hz : ∃ n, z = wrapTo unsigned n := by
    cases op with
    | div | mod => exact ⟨_, (Option.some.inj (Option.ite_none_left_eq_some.1 h).2).symm⟩
    | _ => exact ⟨_, (Option.some.inj h).symm⟩
  obtain ⟨n, rfl⟩ := hz
  exact inRange_wrapTo unsigned n

theorem IntBinary.op_eq_div_or_mod : op.op = .div ∨ op.op = .mod ↔ op = .div ∨ op = .mod := by
  cases op <;> decide

namespace IntTree

theorem inRange_eval? {t : IntTree} {n : WordNumber} (h : t.eval? = some n) :
    InRange n.unsigned n.value := by
  induction t generalizing n with
  | literal _ k =>
    cases h
    have hlt := k.toNat_lt
    unfold InRange
    simp only [decide_eq_true_iff]
    split <;> omega
  | unary _ op x ih =>
    obtain ⟨a, ha, rfl⟩ := Option.map_eq_some_iff.1 h
    exact op.inRange_result (ih ha)
  | binary _ op l r =>
    obtain ⟨a, -, h⟩ := Option.bind_eq_some_iff.1 h
    obtain ⟨b, -, h⟩ := Option.bind_eq_some_iff.1 h
    obtain ⟨z, hz, rfl⟩ := Option.map_eq_some_iff.1 h
    exact IntBinary.inRange_result? hz

theorem dividesByZero_unary {span : Span} {op : IntUnary} {x : IntTree} :
    (unary span op x).DividesByZero ↔ x.DividesByZero := by
  constructor
  · rintro ⟨span', op', l, r, n, hop, hpart, hzero⟩
    cases hpart with
    | operand hpart => exact ⟨span', op', l, r, n, hop, hpart, hzero⟩
  · rintro ⟨span', op', l, r, n, hop, hpart, hzero⟩
    exact ⟨span', op', l, r, n, hop, .operand hpart, hzero⟩

theorem dividesByZero_binary {span : Span} {l r : IntTree} :
    (binary span op l r).DividesByZero ↔ l.DividesByZero ∨ r.DividesByZero ∨
      (op = .div ∨ op = .mod) ∧ ∃ n, r.eval? = some n ∧ n.value = 0 := by
  constructor
  · rintro ⟨span', op', l', r', n, hop, hpart, hzero⟩
    cases hpart with
    | self => exact .inr (.inr ⟨hop, n, hzero⟩)
    | left hpart => exact .inl ⟨span', op', l', r', n, hop, hpart, hzero⟩
    | right hpart => exact .inr (.inl ⟨span', op', l', r', n, hop, hpart, hzero⟩)
  · rintro (⟨span', op', l', r', n, hop, hpart, hzero⟩ |
      ⟨span', op', l', r', n, hop, hpart, hzero⟩ | ⟨hop, n, hzero⟩)
    · exact ⟨span', op', l', r', n, hop, .left hpart, hzero⟩
    · exact ⟨span', op', l', r', n, hop, .right hpart, hzero⟩
    · exact ⟨span, op, l, r, n, hop, .self, hzero⟩

/-- Only a division by zero leaves an expression without a number. -/
theorem eval?_eq_none {t : IntTree} : t.eval? = none ↔ t.DividesByZero := by
  induction t with
  | literal span k =>
    refine ⟨fun h => (Option.some_ne_none _ h).elim, ?_⟩
    rintro ⟨_, _, _, _, _, _, hpart, _⟩
    cases hpart
  | unary span op x ih => rw [dividesByZero_unary, ← ih, eval?, Option.map_eq_none_iff]
  | binary span op l r ihl ihr =>
    rw [dividesByZero_binary, ← ihl, ← ihr, eval?]
    cases l.eval? with
    | none => simp
    | some a =>
      cases r.eval? with
      | none => simp
      | some b => simp [IntBinary.result?_eq_none, IntBinary.op_eq_div_or_mod]

end IntTree

/-! ## Typing -/

theorem wordValue_eq_zero {ty : Ty} {v : Int32} : wordValue ty v = 0 ↔ v = 0 := by
  unfold wordValue
  split
  · have h := toUInt32_toNat v
    rw [← Int32.toInt_inj, Int32.toInt_zero]
    have hge := v.le_toInt
    split at h <;> omega
  · rw [← Int32.toInt_inj, Int32.toInt_zero]

theorem ofInt_eq_zero {n : Int} (h : InRange unsigned n) : Int32.ofInt n = 0 ↔ n = 0 := by
  cases unsigned with
  | false => rw [← wordValue_eq_zero, wordValue_ofInt h (show Ty.int.isUnsigned = false from rfl)]
  | true => rw [← wordValue_eq_zero, wordValue_ofInt h (show Ty.uint.isUnsigned = true from rfl)]

namespace Typing

variable {σ : Setting} {s : Scope}

def numberAt (span : Span) (unsigned : Bool) (v : Int32) : Expr :=
  .ofConstant span ⟨if unsigned then .uint else .int, .int v⟩

theorem isZero_numberAt (span : Span) (unsigned : Bool) (v : Int32) :
    (numberAt span unsigned v).isZero = decide (v = 0) := by
  have hnumber : (numberAt span unsigned v).isZero =
      (wordToFloat (if unsigned then .uint else .int) v == wordToFloat .int 0) := by
    cases unsigned <;> rfl
  rw [hnumber, Bool.eq_iff_iff, float_beq_iff, floatOrder_wordToFloat, decide_eq_true_iff,
    Option.some_inj, Std.LawfulEqCmp.compare_eq_iff_eq, wordValue_eq_zero (v := 0) |>.2 rfl,
    wordValue_eq_zero]

theorem unaryOf_run (span here : Span) (op : IntUnary) (unsigned : Bool) (v : Int32) :
    ∃ span', (unaryOf span op.op (numberAt here unsigned v)).runFrom σ s =
      (.ok (numberAt span' unsigned (op.word v)), s) := by
  cases op with
  | plus => exact ⟨here, by cases unsigned <;> rfl⟩
  | minus => exact ⟨span, by cases unsigned <;> rfl⟩
  | complement =>
    refine ⟨span, ?_⟩
    have hfloat : (numberAt here unsigned v).ty.isFloat = false := by cases unsigned <;> rfl
    rw [IntUnary.op, unaryOf, complement]
    simp only [runFrom_bind, runFrom_read, hfloat, Bool.and_false, Bool.false_eq_true, if_false]
    cases unsigned <;> rfl

theorem commonType_run (left right : Span) (u u' : Bool) (v w : Int32) :
    (commonType (numberAt left u v) (numberAt right u' w)).runFrom σ s =
      (.ok (if u && u' then .uint else .int), s) := by
  cases u <;> cases u' <;> rfl

theorem arithmetic_run (span left right : Span) (op : BinOp) (u u' : Bool) (v w : Int32) :
    (arithmetic span op (numberAt left u v) (numberAt right u' w)).runFrom σ s =
      (if (op = .div ∨ op = .mod) ∧ w = 0 then .error { fault := .divisionByZero, span }
      else .ok (numberAt span (u && u')
        (if u && u' then (wordArithmetic op v.toUInt32 w.toUInt32).toInt32
        else intArithmetic op v w)), s) := by
  have hnumeric : bothNumeric (numberAt left u v) (numberAt right u' w) = true := by
    cases u <;> cases u' <;> rfl
  rw [arithmetic, hnumeric, isZero_numberAt]
  simp only [Bool.not_true, Bool.false_eq_true, if_false, runFrom_bind, commonType_run,
    Bool.and_eq_true, Bool.or_eq_true, decide_eq_true_iff]
  split
  · rfl
  · cases u <;> cases u' <;> rfl

theorem bitwise_run (span left right : Span) (op : BinOp) (u u' : Bool) (v w : Int32) :
    (bitwise span op (numberAt left u v) (numberAt right u' w)).runFrom σ s =
      (.ok (numberAt span (u && u') (foldBits op v w)), s) := by
  have hleft : (numberAt left u v).ty.isFloat = false := by cases u <;> rfl
  have hright : (numberAt right u' w).ty.isFloat = false := by cases u' <;> rfl
  rw [bitwise]
  simp only [runFrom_bind, runFrom_read, hleft, hright, Bool.or_false, Bool.and_false,
    Bool.false_eq_true, if_false]
  cases u <;> cases u' <;> rfl

theorem binaryOf_run (span left right : Span) (op : IntBinary) (u u' : Bool) (v w : Int32) :
    (binaryOf span op.op (numberAt left u v) (numberAt right u' w)).runFrom σ s =
      (if (op.op = .div ∨ op.op = .mod) ∧ w = 0 then .error { fault := .divisionByZero, span }
      else .ok (numberAt span (u && u') (op.word (u && u') v w)), s) := by
  cases op with
  | add => exact arithmetic_run span left right .add u u' v w
  | sub => exact arithmetic_run span left right .sub u u' v w
  | mul => exact arithmetic_run span left right .mul u u' v w
  | div => exact arithmetic_run span left right .div u u' v w
  | mod => exact arithmetic_run span left right .mod u u' v w
  | and => exact bitwise_run span left right .bitAnd u u' v w
  | or => exact bitwise_run span left right .bitOr u u' v w
  | xor => exact bitwise_run span left right .bitXor u u' v w
  | shl => exact bitwise_run span left right .shl u u' v w
  | shr => exact bitwise_run span left right .shr u u' v w
  | ushr => exact bitwise_run span left right .ushr u u' v w

/-- Typing comes to a number, or is rejected for a division by zero. -/
def ComesTo (σ : Setting) (s : Scope) (x : Typing Expr) : Option WordNumber → Prop
  | some n => ∃ span, x.runFrom σ s = (.ok (numberAt span n.unsigned (Int32.ofInt n.value)), s)
  | none => ∃ span, x.runFrom σ s = (.error { fault := .divisionByZero, span }, s)

namespace ComesTo

variable {x y : Typing Expr} {m n : Option WordNumber}

theorem unary (hx : ComesTo σ s x n) (span : Span) (op : IntUnary) :
    ComesTo σ s (x >>= unaryOf span op.op)
      (n.map fun a => ⟨a.unsigned, op.result a.unsigned a.value⟩) := by
  obtain _ | a := n
  · obtain ⟨here, hx⟩ := hx
    exact ⟨here, by rw [runFrom_bind, hx]⟩
  · obtain ⟨here, hx⟩ := hx
    obtain ⟨span', hop⟩ := unaryOf_run span here op a.unsigned (Int32.ofInt a.value)
    refine ⟨span', ?_⟩
    rw [runFrom_bind, hx, ← op.word_ofInt a.unsigned]
    exact hop

theorem binary (hx : ComesTo σ s x m) (hy : ComesTo σ s y n)
    (hrange : ∀ b, n = some b → InRange b.unsigned b.value) (span : Span) (op : IntBinary) :
    ComesTo σ s (x >>= fun l => y >>= fun r => binaryOf span op.op l r)
      (m.bind fun a => n.bind fun b =>
        (op.result? (a.unsigned && b.unsigned) a.value b.value).map
          (⟨a.unsigned && b.unsigned, ·⟩)) := by
  obtain _ | a := m
  · obtain ⟨here, hx⟩ := hx
    exact ⟨here, by rw [runFrom_bind, hx]⟩
  obtain ⟨left, hx⟩ := hx
  obtain _ | b := n
  · obtain ⟨here, hy⟩ := hy
    exact ⟨here, by simp only [runFrom_bind, hx, hy]⟩
  obtain ⟨right, hy⟩ := hy
  have hrun : (x >>= fun l => y >>= fun r => binaryOf span op.op l r).runFrom σ s =
      (binaryOf span op.op (numberAt left a.unsigned (Int32.ofInt a.value))
        (numberAt right b.unsigned (Int32.ofInt b.value))).runFrom σ s := by
    simp only [runFrom_bind, hx, hy]
  have hzero := ofInt_eq_zero (hrange b rfl)
  rw [binaryOf_run] at hrun
  rw [Option.bind_some, Option.bind_some]
  cases hz : op.result? (a.unsigned && b.unsigned) a.value b.value with
  | none =>
    obtain ⟨hop, hb⟩ := IntBinary.result?_eq_none.1 hz
    exact ⟨span, by rw [hrun, if_pos ⟨hop, hzero.2 hb⟩]⟩
  | some z =>
    have hdivides : ¬((op.op = .div ∨ op.op = .mod) ∧ Int32.ofInt b.value = 0) := fun h =>
      Option.some_ne_none z (hz.symm.trans (IntBinary.result?_eq_none.2 ⟨h.1, hzero.1 h.2⟩))
    exact ⟨span, by rw [hrun, if_neg hdivides, IntBinary.word_ofInt hz]⟩

end ComesTo

theorem settle_unary (span : Span) (op : UnaryOp) (x : Expr) :
    (Expr.unary { span } op x).settle = x.settle >>= unaryOf span op := by
  rw [Expr.settle]
  rfl

theorem settle_binary (span : Span) (op : BinOp) (l r : Expr) :
    (Expr.binary { span } op l r).settle =
      l.settle >>= fun l => r.settle >>= fun r => binaryOf span op l r := by
  rw [Expr.settle]
  rfl

/-- An expression is typed as its number, or rejected where it has none. -/
theorem settle_toExpr (t : IntTree) : ComesTo σ s t.toExpr.settle t.eval? := by
  induction t with
  | literal span n =>
    refine ⟨span, ?_⟩
    rw [IntTree.toExpr, literalConstant, toInt32_eq_ofInt]
    by_cases hlt : n.toNat < 2 ^ 31
    · rw [if_pos hlt, decide_eq_false (by omega)]
      rfl
    · rw [if_neg hlt, decide_eq_true (by omega), Constant.uint, toInt32_eq_ofInt]
      rfl
  | unary span op x ih =>
    rw [IntTree.toExpr, settle_unary]
    exact ih.unary span op
  | binary span op l r ihl ihr =>
    rw [IntTree.toExpr, settle_binary]
    exact ihl.binary ihr (fun _ => IntTree.inRange_eval?) span op

end Typing

theorem intLiteral_run (n : UInt32) (c : Cursor) :
    (Reader.intLiteral n.toUInt64).run.run c = (.ok (literalConstant n), c) := by
  have hword : Int32.ofNat n.toNat = n.toInt32 := by
    rw [toInt32_eq_ofInt, Int32.ofInt_eq_ofNat]
  rw [Reader.intLiteral, literalConstant, UInt32.toNat_toUInt64]
  rw [show (2 ^ 31 : Nat) = 0x80000000 from rfl]
  by_cases hlt : n.toNat < 0x80000000
  · rw [if_pos hlt, if_pos hlt, hword]
    rfl
  · rw [if_neg hlt, if_pos n.toNat_lt, if_neg hlt, UInt32.ofNat_toNat]
    rfl

/-- An expression of literals below 2 ^ 32 has a number unless some part divides by zero. With a
number the expression is typed as one constant, of the type the number has and with the word that
stands for it; with none it is rejected. The constants of literals are those that reading gives. -/
theorem integer_expressions_fold (t : IntTree) (σ : Setting) (s : Scope) :
    (t.eval? = none ↔ t.DividesByZero) ∧
      (t.eval?.elim
        (∃ r, t.toExpr.settle.runFrom σ s = (.error r, s) ∧ r.fault = .divisionByZero ∧
          r.fault.code = "ACT-T005")
        fun n => ∃ span v, wordValue n.ty v = n.value ∧
          t.toExpr.settle.runFrom σ s = (.ok (.ofConstant span ⟨n.ty, .int v⟩), s)) ∧
      ∀ (n : UInt32) (c : Cursor),
        (Reader.intLiteral n.toUInt64).run.run c = (.ok (literalConstant n), c) := by
  refine ⟨IntTree.eval?_eq_none, ?_, intLiteral_run⟩
  have hsettle := Typing.settle_toExpr t (σ := σ) (s := s)
  cases heval : t.eval? with
  | none =>
    rw [heval] at hsettle
    obtain ⟨span, hrun⟩ := hsettle
    exact ⟨_, hrun, rfl, rfl⟩
  | some n =>
    rw [heval] at hsettle
    obtain ⟨span, hrun⟩ := hsettle
    refine ⟨span, Int32.ofInt n.value, wordValue_ofInt (IntTree.inRange_eval? heval) ?_, hrun⟩
    unfold WordNumber.ty
    cases n.unsigned <;> rfl

end ActorScript
