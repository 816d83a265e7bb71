import ActorScript.Function
import ActorScript.Grammar.Statement
import ActorScript.Proofs.Lowering.Safety
import ActorScript.Proofs.Machine.Words
import ActorScript.Proofs.Typing.Run

/-! # Doubles as integers

A double constant that meets an integer type is cut towards zero at once, and code does the same
to a value that is not known. Both give the number cut, but for unsigned constants from 2 ^ 31 on,
which are held to the range of signed words.
-/

namespace ActorScript

variable {x : Float} {n : Int} {kind : IntKind}

/-! ## Cutting -/

namespace Decimal

/-- A whole number is the next one to a double on the way to zero. -/
def Truncates (x : Float) (n : Int) : Prop :=
  ∃ b, decode x = .finite b ∧ n.natAbs * b.denominator ≤ b.numerator ∧
    b.numerator < (n.natAbs + 1) * b.denominator ∧ if b.negative then n ≤ 0 else 0 ≤ n

theorem Truncates.eq_truncated (h : Truncates x n) :
    ∃ b, decode x = .finite b ∧ b.truncated = n := by
  obtain ⟨b, hb, hle, hlt, hsign⟩ := h
  have hwhole : b.numerator / b.denominator = n.natAbs :=
    Nat.div_eq_of_lt_le hle hlt
  refine ⟨b, hb, ?_⟩
  unfold Binary.truncated
  split at hsign <;> simp only [*, if_true, if_false, Bool.false_eq_true] <;> omega

theorem Truncates.truncateTo (h : Truncates x n) (least greatest : Int) :
    truncateTo least greatest x = max least (min greatest n) := by
  obtain ⟨b, hb, rfl⟩ := h.eq_truncated
  rw [Decimal.truncateTo, hb]

theorem Truncates.toInt32 (h : Truncates x n) :
    toInt32 x = Int32.ofInt (max (-0x80000000) (min 0x7fffffff n)) := by
  rw [Decimal.toInt32, h.truncateTo]

theorem Truncates.toUInt32 (h : Truncates x n) (hn : InRange true n) :
    (toUInt32 x).toInt32 = Int32.ofInt n := by
  have hle : 0 ≤ n ∧ n < 2 ^ 32 := hn
  rw [Decimal.toUInt32, h.truncateTo, toInt32_eq_ofInt]
  congr 1
  have hnat : (max 0 (min 0xffffffff n)).toNat < UInt32.size := by
    rw [UInt32.size]
    omega
  rw [UInt32.toNat_ofNat_of_lt' hnat]
  omega

end Decimal

def IntKind.bounds : IntKind → Int × Int
  | .i8 => (-2 ^ 7, 2 ^ 7 - 1)
  | .u8 => (0, 2 ^ 8 - 1)
  | .i16 => (-2 ^ 15, 2 ^ 15 - 1)
  | .u16 => (0, 2 ^ 16 - 1)
  | .i32 => (-2 ^ 31, 2 ^ 31 - 1)
  | .u32 => (0, 2 ^ 32 - 1)

def IntKind.Has (kind : IntKind) (n : Int) : Prop :=
  kind.bounds.1 ≤ n ∧ n ≤ kind.bounds.2

theorem IntKind.Has.inRange (h : kind.Has n) : InRange (Ty.integer kind).isUnsigned n := by
  unfold Has at h
  unfold InRange
  cases kind <;> simp_all [bounds, Ty.isUnsigned] <;> omega

theorem IntKind.Has.eq_u32 (h : kind.Has n) (hn : 2 ^ 31 ≤ n) : kind = .u32 := by
  unfold Has at h
  cases kind <;> simp_all [bounds] <;> omega

/-- A double cut to a signed word and read as a number of a type. -/
theorem wordValue_toInt32 {v : Float} (hn : Decimal.Truncates v n) (hkind : kind.Has n) :
    wordValue (.integer kind) (Decimal.toInt32 v) = min n (2 ^ 31 - 1) := by
  have hrange := hkind.inRange
  have hleast : -2 ^ 31 ≤ n := by
    unfold InRange at hrange
    split at hrange <;> omega
  rw [hn.toInt32]
  by_cases hlarge : 2 ^ 31 ≤ n
  · cases hkind.eq_u32 hlarge
    rw [show max (-0x80000000) (min 0x7fffffff n) = 2 ^ 31 - 1 by omega,
      wordValue_ofInt (show InRange true (2 ^ 31 - 1) from ⟨by decide, by decide⟩) rfl]
    omega
  · rw [show max (-0x80000000) (min 0x7fffffff n) = n by omega, wordValue_ofInt hrange rfl]
    omega

/-! ## Constants -/

namespace Typing

variable {σ : Setting} {s s1 : Scope}

def cut (here : Span) (kind : IntKind) (v : Float) : Expr :=
  .ofConstant here ⟨.integer kind, .int (Decimal.toInt32 v)⟩

theorem typeNamed_describe (span : Span) (kind : IntKind) :
    (typeNamed span kind.describe).runFrom σ s = (.ok (.integer kind), s) := by
  cases kind <;> rfl

theorem runFrom_bind_of_ok {α β : Type} {x : Typing α} {a : α}
    (hx : x.runFrom σ s = (.ok a, s1)) (f : α → Typing β) :
    (x >>= f).runFrom σ s = (f a).runFrom σ s1 := by
  rw [runFrom_bind, hx]

theorem warn_run (span : Span) (fault : Fault) :
    ∃ s', s.Noted s' ∧ (warn span fault).runFrom σ s = (.ok ⟨⟩, s') :=
  ⟨_, Scope.noted_recordAll, rfl⟩

theorem toInt_run (span here : Span) (v : Float) (quiet : Bool) :
    ∃ s', s.Noted s' ∧ (toInt span (.ofConstant here (.float v)) quiet).runFrom σ s =
      (.ok (.ofConstant span (.int (Decimal.toInt32 v))), s') := by
  cases hwarn : !quiet && losesFraction v with
  | false =>
    refine ⟨s, .refl s, ?_⟩
    change (if (!quiet && losesFraction v) = true then _ else _ : Typing Expr).runFrom σ s = _
    rw [hwarn]
    rfl
  | true =>
    obtain ⟨s', hnoted, hrun⟩ :=
      warn_run (σ := σ) (s := s) span (.truncatedConstant (Decimal.fixed 6 v))
    refine ⟨s', hnoted, ?_⟩
    change (if (!quiet && losesFraction v) = true then
      warn span (.truncatedConstant (Decimal.fixed 6 v)) >>= fun _ => _ else _ :
        Typing Expr).runFrom σ s = _
    rw [hwarn, if_pos rfl, runFrom_bind_of_ok hrun]
    rfl

theorem convert_run (span here : Span) (kind : IntKind) (v : Float) (quiet : Bool) :
    ∃ s', s.Noted s' ∧
      (convert span (.ofConstant here (.float v)) (.integer kind) quiet).runFrom σ s =
        (.ok (cut here kind v), s') := by
  obtain ⟨s', hnoted, hrun⟩ := toInt_run (σ := σ) (s := s) here here v quiet
  refine ⟨s', hnoted, ?_⟩
  change ((toInt here (.ofConstant here (.float v)) quiet) >>= fun x =>
    pure (x.retype (.integer kind))).runFrom σ s = _
  rw [runFrom_bind_of_ok hrun]
  rfl

theorem assignValue_run (span here : Span) (kind : IntKind) (v : Float) :
    ∃ s', s.Noted s' ∧
      (assignValue span (.integer kind) (.ofConstant here (.float v))).runFrom σ s =
        (.ok (cut here kind v), s') := by
  obtain ⟨s', hnoted, hrun⟩ := toInt_run (σ := σ) (s := s) here here v σ.lax
  refine ⟨s', hnoted, ?_⟩
  change (toInt here (.ofConstant here (.float v)) σ.lax >>= fun x =>
    pure (x.retype (.integer kind))).runFrom σ s = _
  rw [runFrom_bind_of_ok hrun]
  rfl

end Typing

theorem Scope.Noted.eq_record {s s' : Scope} (h : s.Noted s') :
    s' = { s with diagnostics := s'.diagnostics } := by
  obtain ⟨hcore, -⟩ := h
  cases s
  cases s'
  simp_all [Scope.core]

theorem Scope.Noted.declareLocal {s s' s1 : Scope} (h : s.Noted s') {name : String} {ty : Ty}
    {id : LocalId} (hnew : s.declareLocal name ty = .ok (id, s1)) :
    ∃ s2, s'.declareLocal name ty = .ok (id, s2) := by
  rw [h.eq_record]
  unfold Scope.declareLocal at hnew ⊢
  cases hblocks : s.blocks with
  | nil =>
    rw [hblocks] at hnew
    cases hnew
  | cons block outer =>
    simp only [hblocks] at hnew ⊢
    split at hnew
    · cases hnew
    next hfresh =>
      cases hnew
      exact ⟨_, if_neg hfresh⟩

namespace Typing

/-- Where an integer type is wanted, a double constant becomes a constant of the type with a
word. -/
structure FoldsTo (v : Float) (kind : IntKind) (word : Int32) : Prop where
  cast {σ : Setting} {s s₁ : Scope} {span here : Span} {e : Expr}
    (he : e.settle.runFrom σ s = (.ok (.ofConstant here (.float v)), s₁)) :
    ∃ s₂, (Expr.explicitCast { span } e kind.describe).settle.runFrom σ s =
      (.ok (.ofConstant here ⟨.integer kind, .int word⟩), s₂)
  assignment {σ : Setting} {s s₁ s₂ : Scope} {span here : Span} {target e t place : Expr}
    (ht : target.settle.runFrom σ s = (.ok t, s₁)) (hty : t.ty = .integer kind)
    (hplace : t.addressOf? = some (true, place))
    (he : e.settle.runFrom σ (s₁.pushTarget t.ty) = (.ok (.ofConstant here (.float v)), s₂)) :
    ∃ s₃, (Expr.assign { span } target e).settle.runFrom σ s =
      (.ok (.assign (Expr.settled span (.integer kind)) place
        (.ofConstant here ⟨.integer kind, .int word⟩)), s₃)
  initialiser {σ : Setting} {s s₁ s₂ : Scope} {span here : Span} {e : Expr} {name : String}
    {id : LocalId} (he : e.settle.runFrom σ s = (.ok (.ofConstant here (.float v)), s₁))
    (hnew : s₁.declareLocal name (.integer kind) = .ok (id, s₂)) :
    ∃ s₃, (Stmt.declare span name kind.describe (some e) none).settle.runFrom σ s =
      (.ok (.declare span name kind.describe
        (some (.ofConstant here ⟨.integer kind, .int word⟩)) (some id)), s₃)
  argument {σ : Setting} {s s₁ : Scope} {here : Span} {e : Expr} {f : Signature} {index : Nat}
    (he : e.settle.runFrom σ s = (.ok (.ofConstant here (.float v)), s₁))
    (hparam : f.params[index]? = some (.integer kind)) :
    ∃ s₂, (settleArgs (invokeArgument f) index [e]).runFrom σ s =
      (.ok [.ofConstant here ⟨.integer kind, .int word⟩], s₂)

theorem foldsTo_toInt32 (v : Float) (kind : IntKind) : FoldsTo v kind (Decimal.toInt32 v) where
  cast {σ s s1 span here e} he := by
    obtain ⟨s2, -, hrun⟩ := convert_run (σ := σ) (s := s1) span here kind v true
    refine ⟨s2, ?_⟩
    rw [Expr.settle]
    change (typeNamed span kind.describe >>= fun ty => e.settle >>= fun x =>
      convert span x ty true).runFrom σ s = _
    rw [runFrom_bind_of_ok (typeNamed_describe span kind), runFrom_bind_of_ok he, hrun]
    rfl
  assignment {σ s s1 s2 span here target e t place} ht hty hplace he := by
    obtain ⟨s3, -, hrun⟩ := assignValue_run (σ := σ) (s := s2.popTarget) span here kind v
    refine ⟨s3, ?_⟩
    rw [Expr.settle]
    change (target.settle >>= fun target =>
      bracket (Scope.pushTarget target.ty) Scope.popTarget e.settle >>= fun value =>
        assignTo span target value).runFrom σ s = _
    have hbracket : (bracket (Scope.pushTarget t.ty) Scope.popTarget e.settle).runFrom σ s1 =
        (.ok (.ofConstant here (.float v)), s2.popTarget) := by
      rw [bracket, runFrom_bind_of_ok (runFrom_modify _), runFrom_tryCatch, runFrom_bind_of_ok he]
      rfl
    rw [runFrom_bind_of_ok ht, runFrom_bind_of_ok hbracket, assignTo, hty, runFrom_bind_of_ok hrun,
      requireWritable, hplace]
    rfl
  initialiser {σ s s1 s2 span here e name id} he hnew := by
    obtain ⟨s3, hnoted, hrun⟩ := convert_run (σ := σ) (s := s1) e.span here kind v false
    obtain ⟨s4, hnew'⟩ := hnoted.declareLocal hnew
    refine ⟨s4, ?_⟩
    have hlocal : (declareLocal span name (.integer kind)).runFrom σ s3 = (.ok id, s4) := by
      rw [declareLocal, runFrom_bind_of_ok runFrom_get, hnew']
      rfl
    rw [Stmt.settle, settleDeclaration, runFrom_bind_of_ok (typeNamed_describe span kind)]
    change (e.settle >>= fun x => convert e.span x (.integer kind) false >>= fun value =>
      declareLocal span name (.integer kind) >>= fun id => describe (.integer kind) >>= fun type =>
        pure (Stmt.declare span name type (some value) (some id))).runFrom σ s = _
    rw [runFrom_bind_of_ok he, runFrom_bind_of_ok hrun, runFrom_bind_of_ok hlocal]
    rfl
  argument {σ s s1 here e f index} he hparam := by
    obtain ⟨s2, -, hrun⟩ := convert_run (σ := σ) (s := s1) e.span here kind v false
    refine ⟨s2, ?_⟩
    rw [settleArgs, settleArgs, runFrom_bind_of_ok he, invokeArgument,
      List.getD_eq_getElem?_getD, hparam, Option.getD_some, runFrom_bind_of_ok hrun]
    rfl

end Typing

/-! ## Code -/

def Conversion.wordOf? (v : Float) : Conversion → Option Int32
  | .floatToInt => some (Decimal.toInt32 v)
  | .floatToUInt => some (Decimal.toUInt32 v).toInt32
  | _ => none

def IntKind.conversion (kind : IntKind) : Conversion :=
  if (Ty.integer kind).isUnsigned then .floatToUInt else .floatToInt

/-- Code cuts a value to the number cut, in all of the range of the type. -/
theorem IntKind.Has.wordOf? {v : Float} (hkind : kind.Has n) (hn : Decimal.Truncates v n) :
    ∃ word, kind.conversion.wordOf? v = some word ∧ wordValue (.integer kind) word = n := by
  have hrange := hkind.inRange
  unfold IntKind.conversion
  cases hunsigned : (Ty.integer kind).isUnsigned with
  | true =>
    rw [hunsigned] at hrange
    refine ⟨_, rfl, ?_⟩
    rw [hn.toUInt32 hrange, wordValue_ofInt hrange hunsigned]
  | false =>
    rw [hunsigned] at hrange
    refine ⟨_, rfl, ?_⟩
    have hlt : n < 2 ^ 31 := hrange.2
    rw [wordValue_toInt32 hn hkind]
    omega

/-- Code that cuts a value ends in one conversion, of the register that the value is in. -/
theorem yields_intCast {t : Target} {d d' : Draft} {place : Place} {span : Span} {x : Expr}
    {quiet : Bool}
    (h : Yields t (Expr.intCast (Expr.settled span (.integer kind)) x quiet).lower d place d') :
    ∃ source d1, Yields t (x.lower >>= Lowering.toRegister) d source d1 ∧
      d'.code = d1.code ++
        [.abc .cast place.operand source.operand (.imm kind.conversion.code)] := by
  rw [Expr.lower, Lowering.intCast, Lowering.convert] at h
  simp only [yields_steps, yields_alloc] at h
  obtain ⟨value, d0, hx, source, d1, hsource, -, out, _, ⟨b, n, hb, -, rfl, rfl⟩, -, rfl, rfl⟩ := h
  refine ⟨source, d1, yields_bind.2 ⟨value, d0, hx, hsource⟩, ?_⟩
  change (((d1.drop source).take b n).push
    (.abc .cast _ source.operand (.imm kind.conversion.code))).code = _
  simp

/-- A double constant whose whole part is a number of an integer type becomes one constant of that
type in a cast, an assignment, a declaration and an argument. It is the whole part except for
unsigned words from 2 ^ 31 on, in whose place stands the greatest signed word. The conversion in
code always gives the whole part. -/
theorem float_constants_cut {v : Float} {n : Int} {kind : IntKind} (hn : Decimal.Truncates v n)
    (hkind : kind.Has n) :
    (∃ word, Typing.FoldsTo v kind word ∧
      (wordValue (.integer kind) word = n ↔ ¬(kind = .u32 ∧ 2 ^ 31 ≤ n)) ∧
      (2 ^ 31 ≤ n → wordValue (.integer kind) word = 2 ^ 31 - 1)) ∧
    (∃ word, kind.conversion.wordOf? v = some word ∧ wordValue (.integer kind) word = n) ∧
    ∀ {t : Target} {d d' : Draft} {place : Place} {span : Span} {x : Expr} {quiet : Bool},
      Yields t (Expr.intCast (Expr.settled span (.integer kind)) x quiet).lower d place d' →
        ∃ source d₁, Yields t (x.lower >>= Lowering.toRegister) d source d₁ ∧
          d'.code = d₁.code ++
            [.abc .cast place.operand source.operand (.imm kind.conversion.code)] := by
  have hword := wordValue_toInt32 hn hkind
  refine ⟨⟨_, Typing.foldsTo_toInt32 v kind, ?_, fun hlarge => by omega⟩, hkind.wordOf? hn,
    yields_intCast⟩
  constructor
  · rintro hcut ⟨-, hlarge⟩
    omega
  · intro hsmall
    have hlt : ¬ 2 ^ 31 ≤ n := fun hlarge => hsmall ⟨hkind.eq_u32 hlarge, hlarge⟩
    omega

/-- Sixteen thousand and a half below zero, for two bytes. -/
theorem float_constants_cut_half :
    Decimal.Truncates (-16000.5) (-16000) ∧ IntKind.Has .i16 (-16000) ∧
      (∃ word, Typing.FoldsTo (-16000.5) .i16 word ∧ wordValue (.integer .i16) word = -16000) ∧
      ∃ word, Conversion.floatToInt.wordOf? (-16000.5) = some word ∧
        wordValue (.integer .i16) word = -16000 := by
  have hn : Decimal.Truncates (-16000.5) (-16000) :=
    ⟨⟨true, 32001 * 2 ^ 38, -39⟩, by decide +kernel⟩
  have hkind : IntKind.Has .i16 (-16000) := ⟨by decide, by decide⟩
  obtain ⟨⟨word, hfolds, hvalue, -⟩, hcode, -⟩ := float_constants_cut hn hkind
  exact ⟨hn, hkind, ⟨word, hfolds, hvalue.2 (by decide)⟩, hcode⟩

/-- Three thousand million is a number of unsigned words, and no constant has it. -/
theorem large_unsigned_constant_held :
    (parseExpression "uint(3000000000.0)").toOption.map
        (fun e => ((evaluateConstant {} {} e).toOption.map fun p => (p.1.ty, p.1.toUInt))) =
          some (some (.uint, 2147483647)) ∧
      Decimal.Truncates 3000000000.0 3000000000 ∧ IntKind.Has .u32 3000000000 :=
  ⟨by decide +kernel, ⟨⟨false, 3000000000 * 2 ^ 21, -21⟩, by decide +kernel⟩, by decide, by decide⟩

end ActorScript
