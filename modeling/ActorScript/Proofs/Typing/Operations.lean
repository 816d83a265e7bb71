import ActorScript.Proofs.Typing.Conversions

/-! # What operators make

Folding two constants keeps truth values canonical, but for shifts to the left: one shifted by one
is two.
-/

namespace ActorScript

namespace Typing

variable {σ : Setting} {s : Scope} {firm : Bool} {P : Nat → Expr → Prop} {n k : Nat}
  {span : Span} {l r x : Expr} {op : BinOp}

/-! ## Common types -/

section Types

variable {a b ty : Ty}

theorem meetBank_cases (a b : Ty) : meetBank a b = .int ∨ meetBank a b = .float := by
  unfold meetBank
  split <;> simp

theorem unify_numbers (w : World) (ha : a.isNumeric = true) (hb : b.isNumeric = true) :
    unify w a b = some (meetType a b) := by
  unfold unify meetType
  by_cases hbool : a = .bool ∧ b = .bool
  · simp [hbool]
  · have hname : ¬ (a = .name ∧ b = .name) := by
      rintro ⟨rfl, -⟩
      cases ha
    simp [hbool, hname, ha, hb]

theorem bank_meetType (ha : a.isNumeric = true) (hb : b.isNumeric = true) :
    (meetType a b).bank? = some (meetBank a b) := by
  cases a <;> simp [Ty.isNumeric] at ha <;> cases b <;> simp [Ty.isNumeric] at hb <;>
    simp only [meetType, meetNumbers, meetBank, Ty.isFloat, Ty.bank?] <;> grind [Ty.bank?]

theorem isFloat_meetType (ha : a.isNumeric = true) (hb : b.isNumeric = true) :
    (meetType a b).isFloat = (a.isFloat || b.isFloat) := by
  cases a <;> simp [Ty.isNumeric] at ha <;> cases b <;> simp [Ty.isNumeric] at hb <;>
    simp only [meetType, meetNumbers, Ty.isFloat, Ty.bank?] <;> grind [Ty.isFloat]

theorem isUnsigned_meetType (ha : a.isNumeric = true) (hb : b.isNumeric = true) :
    (meetType a b).isUnsigned = (a.isUnsigned && b.isUnsigned) := by
  cases a <;> simp [Ty.isNumeric] at ha <;> cases b <;> simp [Ty.isNumeric] at hb <;>
    simp only [meetType, meetNumbers, Ty.bank?] <;> grind [Ty.isUnsigned]

theorem meetType_eq_bool : meetType a b = .bool ↔ a = .bool ∧ b = .bool := by
  unfold meetType meetNumbers
  split
  next h => simp [h]
  next h =>
    simp only [h, iff_false]
    split
    · split <;> simp
    · simp

theorem meetType_of_isFloat (h : a.isFloat = true ∨ b.isFloat = true) : meetType a b = .double := by
  rcases h with h | h
  · cases a <;> simp [Ty.isFloat] at h
    simp [meetType, meetNumbers, Ty.bank?]
  · cases b <;> simp [Ty.isFloat] at h
    simp [meetType, meetNumbers, Ty.bank?]

/-- Numbers meet in floats, in words or as truth values. -/
theorem isWord_meetType (hfloat : (meetType a b).isFloat = false) :
    (meetType a b).isWord = true := by
  revert hfloat
  unfold meetType meetNumbers
  split
  · simp [Ty.isWord]
  split
  · split <;> simp [Ty.isWord]
  · simp [Ty.isFloat]

end Types

theorem bothNumeric_iff :
    bothNumeric l r = true ↔ l.ty.isNumeric = true ∧ r.ty.isNumeric = true := by
  simp [bothNumeric]

theorem commonType_ensures (hl : l.ty.isNumeric = true) (hr : r.ty.isNumeric = true) :
    Ensures σ s (commonType l r) fun ty => ty = meetType l.ty r.ty :=
  .read (.pure (by rw [unify_numbers _ hl hr, Option.getD_some]))

theorem bothConstant?_eq_none : bothConstant? l r = none ↔ ¬ (l.isConstant ∧ r.isConstant) := by
  unfold bothConstant?
  cases hl : l.constant? <;> cases hr : r.constant? <;> simp [Expr.isConstant, hl, hr]

theorem bothConstant?_eq_some {a b : Constant} (h : bothConstant? l r = some (a, b)) :
    l.constant? = some a ∧ r.constant? = some b := by
  unfold bothConstant? at h
  split at h
  next hl hr =>
    cases h
    exact ⟨hl, hr⟩
  next => cases h

/-- Two operands that were made floats if one of them was one. -/
structure Promoted (P Q : Expr → Prop) (l r l' r' : Expr) : Prop where
  left : P l'
  right : Q r'
  constants : l'.isConstant = l.isConstant ∧ r'.isConstant = r.isConstant
  types : if l.ty.isFloat || r.ty.isFloat then l'.ty.isFloat = true ∧ r'.ty.isFloat = true
    else l' = l ∧ r' = r

theorem promote_bears (h : Hereditary σ s firm P) (hl : P n l) (hr : P k r)
    (hnum : l.ty.isFloat = true ∨ r.ty.isFloat = true →
      l.ty.isNumeric = true ∧ r.ty.isNumeric = true) :
    Ensures σ s (promote l r) fun p => Promoted (P n) (P k) l r p.1 p.2 := by
  unfold promote
  split
  next hlf hrf =>
    exact .bind (toFloat_bears h hr) fun r' hr' => .pure
      ⟨hl, hr'.1, ⟨rfl, hr'.2.2 (hnum (.inl hlf)).2⟩, by simp [hlf, hr'.2.1]⟩
  next hlf hrf =>
    exact .bind (toFloat_bears h hl) fun l' hl' => .pure
      ⟨hl'.1, hr, ⟨hl'.2.2 (hnum (.inr hrf)).1, rfl⟩, by simp [hrf, hl'.2.1]⟩
  next hlf hrf =>
    refine .pure ⟨hl, hr, ⟨rfl, rfl⟩, ?_⟩
    cases hl' : l.ty.isFloat <;> cases hr' : r.ty.isFloat <;> simp_all

namespace Promoted

variable {l' r' : Expr} (hp : Promoted (P n) (P k) l r l' r')

include hp

theorem banks (hl : l.ty.isNumeric = true) (hr : r.ty.isNumeric = true) :
    l'.ty.bank? = some (meetBank l.ty r.ty) ∧ r'.ty.bank? = some (meetBank l.ty r.ty) := by
  have htypes := hp.types
  unfold meetBank
  split at htypes
  next hf =>
    rw [if_pos hf]
    exact ⟨Ty.bank_of_isFloat htypes.1, Ty.bank_of_isFloat htypes.2⟩
  next hf =>
    rw [if_neg hf, htypes.1, htypes.2, Ty.bank_of_isNumeric hl, Ty.bank_of_isNumeric hr]
    simp only [Bool.or_eq_true, not_or, Bool.not_eq_true] at hf
    simp [hf]

/-- Operands that are made floats meet in the type that they met in before. -/
theorem meetType_eq : meetType l'.ty r'.ty = meetType l.ty r.ty := by
  have htypes := hp.types
  split at htypes
  next hf => rw [meetType_of_isFloat (.inl htypes.1), meetType_of_isFloat (by simpa using hf)]
  next => rw [htypes.1, htypes.2]

theorem not_constant (hc : bothConstant? l r = none) : ¬ (l'.isConstant ∧ r'.isConstant) := by
  rw [hp.constants.1, hp.constants.2]
  exact bothConstant?_eq_none.1 hc

theorem binary (h : Hereditary σ s firm P) (hl : l.ty.isNumeric = true)
    (hr : r.ty.isNumeric = true) (hc : bothConstant? l r = none) {ty : Ty} {b : Bank}
    (hop : op.bank? (meetBank l.ty r.ty) = some b) (hty : ty.bank? = some b)
    (hresult : op.resultType l'.ty r'.ty = ty) :
    P (n + k) (.binary (Expr.settled span ty) op l' r') :=
  h.overBoth (.binary (hp.banks hl hr).1 (hp.banks hl hr).2 hop hty hresult (hp.not_constant hc)) rfl
    hp.left hp.right

end Promoted

/-! ## Arithmetic and comparisons -/

theorem fair_foldArithmetic {ty : Ty} {a b : Constant} (hbool : ty ≠ .bool)
    (hword : ty.isFloat = false → ty.isWord = true) : (foldArithmetic op ty a b).Fair firm := by
  unfold foldArithmetic
  split
  next => exact Constant.fair_float _
  next hfloat =>
    split
    · exact Constant.fair_uint _
    · exact .of_ne_bool (Constant.inStep_int (hword (by simpa using hfloat))) hbool

/-- Operands that can be compared are numbers, or in a bank that has an equality. -/
theorem comparable_of_unify {w : World} {a b ty : Ty} (h : unify w a b = some ty) :
    (a.isNumeric = true ∧ b.isNumeric = true) ∨
      (a.isFloat = false ∧ b.isFloat = false ∧
        ∃ bank, bank ≠ .string ∧ a.bank? = some bank ∧ b.bank? = some bank) := by
  unfold unify at h
  split at h
  next hbool =>
    simp only [Bool.and_eq_true, decide_eq_true_eq] at hbool
    exact .inl (by simp [hbool, Ty.isNumeric])
  split at h
  next hname =>
    simp only [Bool.and_eq_true, decide_eq_true_eq] at hname
    exact .inr ⟨by simp [hname, Ty.isFloat], by simp [hname, Ty.isFloat], .int, by simp,
      by simp [hname, Ty.bank?], by simp [hname, Ty.bank?]⟩
  split at h
  next hnum => exact .inl (by simpa using hnum)
  split at h
  next hptr =>
    simp only [Bool.and_eq_true] at hptr
    have ha := Ty.bank_of_isPointer hptr.1.1
    have hb := Ty.bank_of_isPointer hptr.1.2
    refine .inr ⟨?_, ?_, .pointer, by simp, ha, hb⟩
    · cases a <;> simp_all [Ty.isFloat, Ty.bank?]
    · cases b <;> simp_all [Ty.isFloat, Ty.bank?]
  next => cases h

theorem isIntegral_iff {ty : Ty} :
    isIntegral ty = true ↔ ty.bank? = some .int ∧ ty.isNumeric = true := by
  simp [isIntegral]

/-- The operation does not shift truth values to the left, if `firm` is set. -/
def Unshifted (firm : Bool) (op : BinOp) (a b : Ty) : Prop :=
  firm = true → op = .shl → a = .bool → b ≠ .bool

theorem canonical_foldBits (hop : op ≠ .shl) {a b : Int32} (ha : a = 0 ∨ a = 1)
    (hb : b = 0 ∨ b = 1) : foldBits op a b = 0 ∨ foldBits op a b = 1 := by
  rcases ha with rfl | rfl <;> rcases hb with rfl | rfl <;> cases op <;>
    first | exact absurd rfl hop | decide

theorem fair_foldBits {a b : Constant} (hop : Unshifted firm op a.ty b.ty)
    (ha : a.Fair firm) (hb : b.Fair firm) (hword : (meetType a.ty b.ty).isWord = true) :
    Constant.Fair firm ⟨meetType a.ty b.ty, .int (foldBits op a.toInt b.toInt)⟩ := by
  refine ⟨Constant.inStep_int hword, fun hfirm hbool => ?_⟩
  subst hfirm
  obtain ⟨hat, hbt⟩ := meetType_eq_bool.1 hbool
  have hshl : op ≠ .shl := fun h => hop rfl h hat hbt
  rcases canonical_foldBits hshl (ha.toInt hat) (hb.toInt hbt)
    with h | h <;> simp [h]

section Binary

variable (h : Hereditary σ s firm P) (hl : P n l) (hr : P k r)

include h hl hr

theorem arithmetic_bears (hop : ∀ b, b = .int ∨ b = .float → op.bank? b = some b)
    (hresult : ∀ a b, op.resultType a b = meetType a b) :
    Ensures σ s (arithmetic span op l r) fun e => P (n + k) e ∧ e.isPlain = true := by
  unfold arithmetic
  split
  next => exact .reject
  next hnum =>
    obtain ⟨hln, hrn⟩ := bothNumeric_iff.1 (by simpa using hnum)
    refine .bind (commonType_ensures hln hrn) ?_
    rintro _ rfl
    split
    · exact .reject
    split
    next =>
      refine .pure ⟨h.fresh _ (fair_foldArithmetic ?_ fun hfloat => ?_), rfl⟩
      · split
        · simp
        · assumption
      · split
        · rfl
        next hbool =>
          rw [if_neg hbool] at hfloat
          exact isWord_meetType hfloat
    next hc =>
      refine .bind (promote_bears h hl hr fun _ => ⟨hln, hrn⟩) fun p hp => .pure ⟨?_, rfl⟩
      exact hp.binary h hln hrn hc (hop _ (meetBank_cases _ _)) (bank_meetType hln hrn)
        ((hresult _ _).trans hp.meetType_eq)

theorem power_bears : Ensures σ s (power span l r) fun e => P (n + k) e ∧ e.isPlain = true := by
  refine .bind (toFloat_bears h hl) fun l' hl' => .bind (toFloat_bears h hr) fun r' hr' => ?_
  split
  next => exact .pure ⟨h.fresh _ (Constant.fair_float _), rfl⟩
  next hc =>
    exact .pure ⟨h.overBoth (.binary (Ty.bank_of_isFloat hl'.2.1) (Ty.bank_of_isFloat hr'.2.1) rfl rfl
      rfl (bothConstant?_eq_none.1 hc)) rfl hl'.1 hr'.1, rfl⟩

theorem ordering_bears (hop : ∀ b, b = .int ∨ b = .float → op.bank? b = some .int)
    (hresult : ∀ a b, op.resultType a b = .bool) :
    Ensures σ s (ordering span op l r) fun e => P (n + k) e ∧ e.isPlain = true := by
  unfold ordering
  split
  next => exact .reject
  next hnum =>
    obtain ⟨hln, hrn⟩ := bothNumeric_iff.1 (by simpa using hnum)
    refine .bind (commonType_ensures hln hrn) fun ty _ => ?_
    split
    next => exact .pure ⟨h.fresh _ (Constant.fair_bool _), rfl⟩
    next hc =>
      refine .bind (promote_bears h hl hr fun _ => ⟨hln, hrn⟩) fun p hp => .pure ⟨?_, rfl⟩
      exact hp.binary h hln hrn hc (hop _ (meetBank_cases _ _)) rfl (hresult _ _)

theorem threeWay_bears :
    Ensures σ s (threeWay span l r) fun e => P (n + k) e ∧ e.isPlain = true := by
  unfold threeWay
  split
  next => exact .reject
  next hnum =>
    obtain ⟨hln, hrn⟩ := bothNumeric_iff.1 (by simpa using hnum)
    refine .bind (promote_bears h hl hr fun _ => ⟨hln, hrn⟩) fun ⟨l', r'⟩ hp => ?_
    dsimp only at hp ⊢
    split
    next => exact .pure ⟨h.fresh _ (Constant.fair_int _), rfl⟩
    next hc =>
      have hbanks := hp.banks hln hrn
      refine .pure ⟨h.overBoth (.binary hbanks.1 hbanks.2 (b := .int) ?_ rfl rfl
        (bothConstant?_eq_none.1 hc)) rfl hp.left hp.right, rfl⟩
      rcases meetBank_cases l.ty r.ty with h | h <;> rw [h] <;> rfl

theorem equality_bears (hop : ∀ b, b ≠ .string → op.bank? b = some .int)
    (hresult : ∀ a b, op.resultType a b = .bool) :
    Ensures σ s (equality span op l r) fun e => P (n + k) e ∧ e.isPlain = true := by
  refine .read ?_
  split
  next => exact .reject
  next ty hty =>
    have hcomparable := comparable_of_unify hty
    dsimp only
    generalize hop' : (if (decide (op = .approxEq) && !ty.isFloat) = true then BinOp.eq else op) = op'
    have hop : (∀ b, b ≠ .string → op'.bank? b = some .int) ∧
        ∀ a b, op'.resultType a b = .bool := by
      rw [← hop']
      split
      · exact ⟨fun b hb => by simp [BinOp.bank?, hb], fun _ _ => rfl⟩
      · exact ⟨hop, hresult⟩
    split
    next => exact .pure ⟨h.fresh _ (Constant.fair_bool _), rfl⟩
    next hc =>
      refine .bind (promote_bears h hl hr fun hf => ?_) fun p hp => .pure ⟨?_, rfl⟩
      · rcases hcomparable with hnum | ⟨hlf, hrf, -⟩
        · exact hnum
        · simp [hlf, hrf] at hf
      · rcases hcomparable with ⟨hln, hrn⟩ | ⟨hlf, hrf, bank, hstring, hlb, hrb⟩
        · refine hp.binary h hln hrn hc (hop.1 _ ?_) rfl (hop.2 _ _)
          rcases meetBank_cases l.ty r.ty with h | h <;> simp [h]
        · have htypes := hp.types
          simp only [hlf, hrf, Bool.or_self, Bool.false_eq_true, if_false] at htypes
          rw [htypes.1, htypes.2]
          exact h.overBoth (.binary hlb hrb (hop.1 bank hstring) rfl (hop.2 _ _)
            (bothConstant?_eq_none.1 hc)) rfl hl hr

/-! ## Bits -/

theorem bitsOf_bears (hop : op.bank? .int = some .int)
    (hresult : ∀ a b, op.resultType a b = meetType a b) (hshift : Unshifted firm op l.ty r.ty) :
    Ensures σ s (bitsOf span op l r) fun e => P (n + k) e ∧ e.isPlain = true := by
  unfold bitsOf
  split
  next => exact .reject
  next hint =>
    simp only [Bool.or_eq_true, Bool.not_eq_true', not_or, Bool.not_eq_false,
      isIntegral_iff] at hint
    obtain ⟨⟨hlb, hln⟩, hrb, hrn⟩ := hint
    have hword : (meetType l.ty r.ty).isWord = true := by
      refine isWord_meetType ?_
      rw [isFloat_meetType hln hrn, Ty.isFloat_of_bank hlb, Ty.isFloat_of_bank hrb]
      rfl
    refine .bind (commonType_ensures hln hrn) ?_
    rintro _ rfl
    split
    next a b hconst =>
      obtain ⟨hlc, hrc⟩ := bothConstant?_eq_some hconst
      refine .pure ⟨h.constant [l, r] rfl (by simp [Ty.bank_of_isWord hword]) (.both hl hr)
        fun _ hfair => ?_, rfl⟩
      obtain ⟨hla, hfa⟩ := hfair l (by simp) a hlc
      obtain ⟨hrb, hfb⟩ := hfair r (by simp) b hrc
      rw [hla, hrb] at hshift hword ⊢
      exact fair_foldBits hshift hfa hfb hword
    next hc =>
      exact .pure ⟨h.overBoth (.binary hlb hrb hop (Ty.bank_of_isWord hword) (hresult _ _)
        (bothConstant?_eq_none.1 hc)) rfl hl hr, rfl⟩

theorem bitwise_bears (hop : op.bank? .int = some .int)
    (hresult : ∀ a b, op.resultType a b = meetType a b) (hshift : Unshifted firm op l.ty r.ty) :
    Ensures σ s (bitwise span op l r) fun e => P (n + k) e ∧ e.isPlain = true := by
  refine .read ?_
  split
  next =>
    refine .bind (toInt_bears h hl true) fun l' hl' => .bind (toInt_bears h hr true) fun r' hr' =>
      bitsOf_bears h hl'.1 hr'.1 hop hresult ?_
    exact fun hfirm hshl hlt hrt => hshift hfirm hshl (hl'.2.2 hlt) (hr'.2.2 hrt)
  next => exact bitsOf_bears h hl hr hop hresult hshift

/-- An operator makes a new node or a constant. -/
theorem binaryOf_bears (op : BinOp) (hshift : Unshifted firm op l.ty r.ty) :
    Ensures σ s (binaryOf span op l r) fun e => P (n + k) e ∧ e.isPlain = true := by
  cases op with
  | pow => exact power_bears h hl hr
  | add | sub | mul | div | mod =>
    exact arithmetic_bears h hl hr (by rintro _ (rfl | rfl) <;> rfl) fun _ _ => rfl
  | lt | gt | le | ge =>
    exact ordering_bears h hl hr (by rintro _ (rfl | rfl) <;> rfl) fun _ _ => rfl
  | eq | ne | approxEq =>
    exact equality_bears h hl hr (fun b hb => by simp [BinOp.bank?, hb]) fun _ _ => rfl
  | threeWay => exact threeWay_bears h hl hr
  | shl | shr | ushr | bitAnd | bitOr | bitXor =>
    exact bitwise_bears h hl hr rfl (fun _ _ => rfl) hshift

end Binary

/-! ## Choices -/

section Branches

variable {w : World} {a b ty : Ty}

/-- The branches of a conditional are kept in the same way as the conditional, once they are
floats if it is one. -/
theorem agree_of_branchType (h : branchType? w a b = some ty) :
    (ty.isFloat = false → Ty.Agree a ty ∧ Ty.Agree b ty) := by
  intro hfloat
  unfold branchType? at h
  split at h
  next hnum =>
    simp only [Bool.and_eq_true] at hnum
    rw [unify_numbers w hnum.1 hnum.2, Option.getD_some, Option.some.injEq] at h
    subst h
    rw [isFloat_meetType hnum.1 hnum.2, Bool.or_eq_false_iff] at hfloat
    have hbank := bank_meetType hnum.1 hnum.2
    simp only [meetBank, hfloat, Bool.or_self, Bool.false_eq_true, if_false] at hbank
    exact ⟨.of_bank (by simp [Ty.bank_of_isNumeric hnum.1, hfloat]) hbank,
      .of_bank (by simp [Ty.bank_of_isNumeric hnum.2, hfloat]) hbank⟩
  split at h
  next heq =>
    cases h
    exact ⟨.refl _, .of_eq heq.symm⟩
  split at h
  next hptr =>
    simp only [Bool.and_eq_true, decide_eq_true_eq] at hptr
    cases h
    exact ⟨.refl _, .of_bank (by rw [hptr.2]; rfl) (Ty.bank_of_isPointer hptr.1)⟩
  split at h
  next hptr =>
    simp only [Bool.and_eq_true, decide_eq_true_eq] at hptr
    cases h
    exact ⟨.of_bank (by rw [hptr.2]; rfl) (Ty.bank_of_isPointer hptr.1), .refl _⟩
  next => cases h

/-- A conditional is a truth value only if both of its branches are. -/
theorem bool_of_branchType (h : branchType? w a b = some ty) (hty : ty = .bool) :
    a = .bool ∧ b = .bool := by
  subst hty
  unfold branchType? at h
  split at h
  next hnum =>
    simp only [Bool.and_eq_true] at hnum
    rw [unify_numbers w hnum.1 hnum.2, Option.getD_some, Option.some.injEq] at h
    exact meetType_eq_bool.1 h
  next hnum =>
    split at h
    next heq =>
      cases h
      exact ⟨rfl, heq.symm⟩
    split at h
    next hptr =>
      cases h
      cases hptr
    split at h
    next hptr =>
      cases h
      cases hptr
    next => cases h

/-- A sign is changed or dropped within the bank of a number. -/
theorem bank_of_signedType (h : signedType? a = some ty) :
    ∃ b, (b = .int ∨ b = .float) ∧ a.bank? = some b ∧ ty.bank? = some b := by
  unfold signedType? at h
  split at h
  next =>
    cases h
    exact ⟨.int, .inl rfl, rfl, rfl⟩
  next =>
    split at h
    next hnum =>
      cases h
      refine ⟨_, ?_, Ty.bank_of_isNumeric hnum, Ty.bank_of_isNumeric hnum⟩
      split <;> simp
    next => cases h

theorem signedType?_spec (h : signedType? a = some ty) : ty ≠ .bool ∧ ty.isNumeric = true := by
  unfold signedType? at h
  split at h
  next => cases h; exact ⟨by simp, rfl⟩
  next hne =>
    split at h
    next hnum => cases h; exact ⟨hne, hnum⟩
    next => cases h

theorem fair_foldSigned (h : signedType? a = some ty) {c : Constant} {f : Float → Float}
    {g : Int32 → Int32} : (foldSigned ty c f g).Fair firm := by
  obtain ⟨hbool, hnum⟩ := signedType?_spec h
  unfold foldSigned
  split
  next hfloat => exact .of_ne_bool (Constant.inStep_float hfloat) hbool
  next hfloat =>
    have hword := Ty.isWord_of_isNumeric hnum (by simpa using hfloat)
    exact .of_ne_bool (Constant.inStep_int hword) hbool

end Branches

section Others

variable (h : Hereditary σ s firm P)

include h

theorem foldLogical_bears (op : LogicalOp) (hl : P n l ∧ l.ty = .bool)
    (hr : P k r ∧ r.ty = .bool) : P (n + k) (foldLogical span op l r) := by
  have hconst (b : Bool) : P (n + k) (.ofConstant span (.bool b)) :=
    h.fresh _ (Constant.fair_bool b)
  have hleft : P (n + k) l := h.more hl.1 (Nat.le_add_right n k)
  have hright : P (n + k) r := h.more hr.1 (Nat.le_add_left k n)
  have hnode : P (n + k) (.logical (Expr.settled span .bool) op l r) :=
    h.overBoth (.logical hl.2 hr.2) rfl hl.1 hr.1
  unfold foldLogical
  dsimp only
  split
  all_goals first | exact hconst _ | exact hleft | exact hright | exact hnode

theorem widen_bears {ty : Ty} (hx : P n x) (hagree : ty.isFloat = false → Ty.Agree x.ty ty) :
    Ensures σ s (widen ty x) fun e => P n e ∧ Ty.Agree e.ty ty ∧ (ty = .bool → e.ty = x.ty) := by
  unfold widen
  split
  next hf =>
    refine (toFloat_bears h hx).mono fun e he =>
      ⟨he.1, .of_bank (Ty.bank_of_isFloat he.2.1) (Ty.bank_of_isFloat hf), ?_⟩
    rintro rfl
    cases hf
  next hf => exact .pure ⟨hx, hagree (by simpa using hf), fun _ => rfl⟩

theorem conditionalOf_bears {m : Nat} {cond t f : Expr} (hc : P m cond ∧ cond.ty = .bool)
    (ht : P n t) (hf : P k f) : Ensures σ s (conditionalOf span cond t f) (P (m + (n + k))) := by
  refine .read ?_
  split
  next => exact .bind .describe fun _ _ => .bind .describe fun _ _ => .reject
  next ty hty =>
    have hagree := agree_of_branchType hty
    have hwt := widen_bears h ht fun h => (hagree h).1
    have hwf := widen_bears h hf fun h => (hagree h).2
    split
    · exact hwt.mono fun _ he => h.more he.1 (by omega)
    · exact hwf.mono fun _ he => h.more he.1 (by omega)
    · refine .bind hwt fun t' ht' => .bind hwf fun f' hf' => .pure (h.node (.conditional hc.2
        (fun hbool => ?_) ht'.2.1 hf'.2.1) (.cons hc.1 (.both ht'.1 hf'.1) (Nat.le_refl _)))
      obtain ⟨htb, hfb⟩ := bool_of_branchType hty hbool
      exact ⟨(ht'.2.2 hbool).trans htb, (hf'.2.2 hbool).trans hfb⟩

/-! ## Unary operators -/

theorem negate_bears (hx : P n x) : Ensures σ s (negate span x) (P n) := by
  unfold negate
  split
  next => exact .reject
  next ty hty =>
    split
    · exact .pure (h.fresh _ (fair_foldSigned hty))
    · exact .pure (h.overOne (.minus hty) rfl hx)

theorem absoluteOf_bears (hx : P n x) : Ensures σ s (absoluteOf span x) (P n) := by
  unfold absoluteOf
  split
  next => exact .reject
  next ty hty =>
    split
    · exact .pure (h.fresh _ (fair_foldSigned hty))
    · exact .pure (h.overOne (.abs hty) rfl hx)

theorem complementOf_bears (hx : P n x) : Ensures σ s (complementOf span x) (P n) := by
  unfold complementOf
  split
  next => exact .reject
  next hint =>
    have hb := (isIntegral_iff.1 (by simpa using hint)).1
    dsimp only
    split
    · refine .pure (h.fresh _ ?_)
      split <;> exact .of_ne_bool rfl (by simp)
    · exact .pure (h.overOne (.bitNot hb) rfl hx)

theorem complement_bears (hx : P n x) : Ensures σ s (complement span x) (P n) := by
  refine .read ?_
  split
  next => exact .bind (toInt_bears h hx true) fun _ hx => complementOf_bears h hx.1
  next => exact complementOf_bears h hx

theorem negateBool_bears (hx : P n x) : Ensures σ s (negateBool span x) (P n) := by
  refine .bind (toBool_bears h hx) fun x' hx' => ?_
  split
  · exact .pure (h.fresh _ (Constant.fair_bool _))
  · exact .pure (h.overOne (.boolNot hx'.2) rfl hx'.1)

theorem unaryOf_bears (op : UnaryOp) (hx : P n x) : Ensures σ s (unaryOf span op x) (P n) := by
  cases op with
  | plus =>
    unfold unaryOf
    dsimp only
    split
    · exact .pure hx
    · exact .reject
  | minus => exact negate_bears h hx
  | bitNot => exact complement_bears h hx
  | boolNot => exact negateBool_bears h hx

end Others

end Typing

end ActorScript
