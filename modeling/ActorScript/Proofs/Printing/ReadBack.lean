import ActorScript.Proofs.Grammar.Phrases
import ActorScript.Proofs.Printing.Places

/-! # Written trees are read back

The readers of the grammar take the tokens of every tree that the grammar gives, in every place,
and give the same tree.
-/

namespace ActorScript

open Reader

variable {e l r object operand : Expr} {ts : List Token} {value : Constant} {name target : String}
  {budget : Nat} {mark : Symbol}

/-! ## Primary operands -/

theorem ByOperand.of_primary (hbegins : Begins ts)
    (h : ∀ budget rest, 16 * ts.length ≤ budget + 8 → Uncalled rest →
      Reads (primary (budget + 2)) (ts ++ rest) rest (SameTree e)) : ByOperand ts e where
  begins := hbegins
  reads budget rest output P hb hrest hnext := by
    have hpos := hbegins.length_pos
    obtain ⟨budget, rfl⟩ : ∃ n, budget = n + 3 := ⟨budget - 3, by omega⟩
    rw [Reader.operand]
    exact (h budget rest (by omega) hrest).bind fun e' he => hnext _ e' (by omega) he

/-- A literal is read as the constant that it was written for. -/
theorem Constant.Literal.reads (h : value.Literal) :
    Reads (literal? value.token) ts ts (· = some value) := by
  cases h with
  | @int v hv =>
    have hnat : v.toUInt32.toUInt64.toNat = v.toNatClampNeg := by
      rw [UInt32.toNat_toUInt64, Int32.toNat_toUInt32_of_le hv]
    refine Reads.given (a := Constant.int v) ?_ (.pure rfl)
    rw [intLiteral, hnat, if_pos v.toNatClampNeg_lt, Int32.ofNat_toNatClampNeg v hv]
    exact .pure rfl
  | @uint v hv =>
    have hnat : v.toInt32.toUInt32.toUInt64.toNat = v.toNat := by
      rw [UInt32.toUInt32_toInt32, UInt32.toNat_toUInt64]
    refine Reads.given (a := Constant.uint v) ?_ (.pure rfl)
    rw [intLiteral, hnat, if_neg (by omega), if_pos v.toNat_lt, UInt32.ofNat_toNat]
    exact .pure rfl
  | float | string | name | null => exact .pure rfl
  | @bool b => cases b <;> exact .pure rfl

theorem Constant.Literal.headed (h : value.Literal) :
    Begins [value.token] ∧ Headed [value.token] := by
  refine ⟨⟨_, [], rfl, ?_⟩, _, [], rfl, ?_, fun _ => nofun⟩
  · cases h with
    | @bool b => cases b <;> rfl
    | int | uint | float | string | name | null => rfl
  · cases h with
    | @bool b => cases b <;> exact fun heq => by cases heq
    | int | uint | float | string | name | null => exact fun heq => by cases heq

theorem takes_constant (h : value.Literal) (span : Span) : Takes (.ofConstant span value) := by
  refine takes_of_operand [value.token] rfl h.headed.2
    (.of_primary h.headed.1 fun budget rest _ _ => ?_)
  rw [primary]
  refine reads_peekSpan.after fun start => reads_peek.given ?_
  refine h.reads.given ?_
  exact (reads_advance _).after fun _ => .pure rfl

theorem takes_selfRef (span : Span) : Takes (.selfRef { span }) := by
  refine takes_of_operand [.keyword .selfWord] rfl (headed_keyword _ _)
    (.of_primary ⟨_, [], rfl, rfl⟩ fun budget rest _ _ => ?_)
  rw [primary]
  refine reads_peekSpan.after fun start => reads_peek.given ?_
  refine Reads.given (a := none) (.pure rfl) ?_
  exact (reads_advance _).after fun _ => .pure rfl

theorem reads_named {output : List Token} {P : Expr → Prop}
    (h : ∀ start, Reads (named budget name start) ts output P) :
    Reads (primary (budget + 1)) (.ident name :: ts) output P := by
  rw [primary]
  refine reads_peekSpan.after fun start => reads_peek.given ?_
  refine Reads.given (a := none) (.pure rfl) ?_
  exact (reads_advance _).after fun _ => h start

theorem headed_ident (name : String) (hmark : mark ≠ .rBracket) (rest : List Token) :
    Headed (.ident name :: .symbol mark :: rest) :=
  ⟨_, _, rfl, nofun, fun _ heq => hmark (Option.some.inj heq)⟩

theorem takes_identifier (span : Span) (name : String) : Takes (.identifier { span } name) := by
  refine takes_of_operand [.ident name] rfl ⟨_, [], rfl, nofun, fun _ => nofun⟩
    (.of_primary ⟨_, [], rfl, rfl⟩ fun budget rest _ hrest => ?_)
  refine reads_named fun start => ?_
  change Reads _ rest rest _
  rw [named]
  refine reads_seesGenerator.given ?_
  rw [hrest.generator]
  refine (reads_sees .lParen).given ?_
  rw [beq_eq_false_iff_ne.2 hrest.paren]
  exact .pure rfl

/-! ## Arguments -/

section Arguments

variable {args : List Expr}

theorem reads_argumentList (h : ∀ e ∈ args, Takes e) {first : Expr} (hfirst : Takes first)
    (hb : 16 * (Expr.listTokens (first :: args)).length < budget) (rest : List Token) :
    Reads (argumentList budget) (Expr.listTokens (first :: args) ++ .symbol .rParen :: rest)
      (.symbol .rParen :: rest) fun es => Expr.bareAll es = Expr.bareAll (first :: args) := by
  induction args generalizing first budget with
  | nil =>
    obtain ⟨budget, rfl⟩ : ∃ n, budget = n + 1 := ⟨budget - 1, by omega⟩
    rw [argumentList]
    rw [Expr.listTokens, Expr.moreTokens, List.append_nil] at hb ⊢
    refine (hfirst.assigning.reads budget _ (by omega) (.closing rfl)).bind fun e' he => ?_
    refine (reads_eat_other (by simp [symbolAhead])).given (.pure ?_)
    rw [Expr.bareAll, he]
    rfl
  | cons second args ih =>
    obtain ⟨budget, rfl⟩ : ∃ n, budget = n + 1 := ⟨budget - 1, by omega⟩
    have hlist : Expr.listTokens (first :: second :: args) =
        first.tokens ++ .symbol .comma :: Expr.listTokens (second :: args) := rfl
    rw [hlist, List.length_append, List.length_cons] at hb
    rw [argumentList, hlist, List.append_assoc]
    refine (hfirst.assigning.reads budget _ (by omega) (.closing rfl)).bind fun e' he => ?_
    refine (reads_eat _).given ?_
    refine (ih (fun e he => h e (by simp [he])) (h second (by simp)) (by omega)).bind
      fun es hes => .pure ?_
    rw [Expr.bareAll, hes, he]
    rfl

theorem reads_arguments (h : ∀ e ∈ args, Takes e)
    (hb : 16 * (Expr.listTokens args).length + 1 < budget) (rest : List Token) :
    Reads (arguments budget) (inParentheses (Expr.listTokens args) ++ rest) rest
      fun es => Expr.bareAll es = Expr.bareAll args := by
  obtain ⟨budget, rfl⟩ : ∃ n, budget = n + 1 := ⟨budget - 1, by omega⟩
  rw [arguments, inParentheses, List.cons_append, List.append_assoc]
  refine (reads_expect _).after fun _ => ?_
  cases args with
  | nil => exact (reads_eat _).given (.pure rfl)
  | cons first args =>
    have hother : symbolAhead (Expr.listTokens (first :: args) ++ .symbol .rParen :: rest) ≠
        some .rParen := by
      obtain ⟨t, more, htokens, hparen, -⟩ := (h first (by simp)).headed 0
      have hfirst : first.tokens = t :: more := htokens
      rw [Expr.listTokens, hfirst]
      cases t with
      | symbol mark => exact fun heq => hparen (congrArg Token.symbol (Option.some.inj heq))
      | keyword | float | int | string | name | ident => exact fun heq => by cases heq
    refine (reads_eat_other hother).given ?_
    refine (reads_argumentList (fun e he => h e (by simp [he])) (h first (by simp)) (by omega)
      rest).bind fun es hes => ?_
    exact (reads_expect _).after fun _ => .pure hes

theorem takes_call (hname : isCastType name = false) (h : ∀ e ∈ args, Takes e) (span : Span) :
    Takes (.call { span } name none args) := by
  refine takes_of_operand (.ident name :: inParentheses (Expr.listTokens args)) rfl
    (headed_ident name (by decide) _) (.of_primary ⟨_, _, rfl, rfl⟩ fun budget rest hb _ => ?_)
  rw [List.length_cons, length_inParentheses] at hb
  refine reads_named fun start => ?_
  rw [named]
  refine reads_seesGenerator.given ?_
  refine (reads_sees .lParen).given ?_
  simp only [hname]
  refine (reads_arguments h (by omega) rest).bind fun es hes => ?_
  refine (reads_since start).after fun span' => .pure ?_
  rw [SameTree, Expr.bare, Expr.bare, hes]
  rfl

theorem takes_callWith (name rng : String) (h : ∀ e ∈ args, Takes e) (span : Span) :
    Takes (.call { span } name (some rng) args) := by
  refine takes_of_operand (.ident name :: .symbol .lBracket :: .ident rng :: .symbol .rBracket ::
    inParentheses (Expr.listTokens args)) rfl (headed_ident name (by decide) _)
    (.of_primary ⟨_, _, rfl, rfl⟩ fun budget rest hb _ => ?_)
  simp only [List.length_cons, length_inParentheses] at hb
  refine reads_named fun start => ?_
  rw [named]
  refine reads_seesGenerator.given ?_
  refine (reads_advance _).after fun _ => (reads_expectIdent rng).given ?_
  refine (reads_expect _).after fun _ => ?_
  refine (reads_arguments h (by omega) rest).bind fun es hes => ?_
  refine (reads_since start).after fun span' => .pure ?_
  rw [SameTree, Expr.bare, Expr.bare, hes]
  rfl

end Arguments

/-! ## Conversions -/

theorem isCastType_of_mem (h : target ∈ castTypes) :
    isCastType target = true ∧ Text.fold target = target := by
  have hall : ∀ t ∈ castTypes, isCastType t = true ∧ Text.fold t = t := by decide +kernel
  exact hall target h

theorem takes_cast (htarget : target ∈ castTypes) (h : Takes operand) (span : Span) :
    Takes (.explicitCast { span } operand target) := by
  have htokens : (Expr.explicitCast { span } operand target).tokens =
      .ident target :: inParentheses operand.tokens := by
    rw [Expr.tokens, castTokens, if_pos htarget]
    rfl
  have hby : ByOperand (.ident target :: inParentheses operand.tokens)
      (.explicitCast { span } operand target) := by
    refine .of_primary ⟨_, _, rfl, rfl⟩ fun budget rest hb _ => ?_
    rw [List.length_cons, length_inParentheses] at hb
    refine reads_named fun start => ?_
    rw [named]
    refine reads_seesGenerator.given ?_
    refine (reads_sees .lParen).given ?_
    simp only [(isCastType_of_mem htarget).1, (isCastType_of_mem htarget).2]
    refine (reads_inParens h.assigning (by omega) rest).bind fun e' he => ?_
    refine (reads_since start).after fun span' => .pure ?_
    rw [SameTree, Expr.bare, Expr.bare, he]
    rfl
  exact takes_of_operand _ htokens (headed_ident target (by decide) _) hby

theorem classNameIn_class (name : String) : classNameIn ("class<" ++ name ++ ">") = name := by
  simp [classNameIn]

theorem castTokens_class (name : String) : castTokens ("class<" ++ name ++ ">") =
    [.keyword .classWord, .symbol .less, .ident name, .symbol .greater] := by
  rw [castTokens, if_neg, classNameIn_class]
  intro hmem
  have hall : ∀ t ∈ castTypes, t.toList.take 6 ≠ "class<".toList := by decide +kernel
  exact hall _ hmem (by simp)

theorem reads_typeName_class (name : String) :
    Reads typeName (.keyword .classWord :: .symbol .less :: .ident name :: .symbol .greater :: ts)
      ts (· = "class<" ++ name ++ ">") := by
  have heat : Reads (eatKeyword .classWord)
      (.keyword .classWord :: .symbol .less :: .ident name :: .symbol .greater :: ts)
      (.symbol .less :: .ident name :: .symbol .greater :: ts) (· = true) :=
    reads_peek.given ((reads_advance _).after fun _ => .pure rfl)
  refine heat.given ((reads_expect _).after fun _ => (reads_expectIdent name).given ?_)
  exact (reads_expect _).after fun _ => .pure rfl

theorem takes_classCast (name : String) (h : Takes operand) (span : Span) :
    Takes (.explicitCast { span } operand ("class<" ++ name ++ ">")) := by
  have htokens : (Expr.explicitCast { span } operand ("class<" ++ name ++ ">")).tokens =
      [.keyword .classWord, .symbol .less, .ident name, .symbol .greater] ++
        inParentheses operand.tokens := by
    rw [Expr.tokens, castTokens_class]
  have hby : ByOperand ([.keyword .classWord, .symbol .less, .ident name, .symbol .greater] ++
      inParentheses operand.tokens) (.explicitCast { span } operand ("class<" ++ name ++ ">")) := by
    refine .of_primary ⟨_, _, rfl, rfl⟩ fun budget rest hb _ => ?_
    rw [List.length_append, length_inParentheses] at hb
    rw [primary]
    refine reads_peekSpan.after fun start => reads_peek.given ?_
    refine Reads.given (a := none) (.pure rfl) ?_
    refine (reads_typeName_class name).given ?_
    refine (reads_inParens h.assigning (by omega) rest).bind fun e' he => ?_
    refine (reads_since start).after fun span' => .pure ?_
    rw [SameTree, Expr.bare, Expr.bare, he]
    rfl
  exact takes_of_operand _ htokens (headed_keyword _ _) hby

/-! ## What follows an operand -/

theorem ByOperand.selected {tail : List Token} (h : ByOperand ts object)
    (hplain : ∀ rest, Uncalled rest → Uncalled (tail ++ rest))
    (hread : ∀ budget object' rest output P, 16 * tail.length ≤ budget + 1 →
      SameTree object object' → Uncalled rest →
      (∀ e', SameTree e e' → Reads (selectors budget e') rest output P) →
      Reads (selectors (budget + 1) object') (tail ++ rest) output P)
    (hpos : 0 < tail.length) : ByOperand (ts ++ tail) e where
  begins := h.begins.append tail
  reads budget rest output P hb hrest hnext := by
    have hpos' := h.begins.length_pos
    rw [List.length_append] at hb hnext
    rw [List.append_assoc]
    refine h.reads budget _ output P (by omega) (hplain rest hrest) fun budget' e' hb' he => ?_
    obtain ⟨budget', rfl⟩ : ∃ n, budget' = n + 1 := ⟨budget' - 1, by omega⟩
    exact hread budget' e' rest output P (by omega) he hrest fun e'' he' =>
      hnext budget' e'' (by omega) he'

theorem takes_member (h : Takes object) (span : Span) (name : String) :
    Takes (.member { span } object name) := by
  refine takes_of_operand _ rfl ((h.headed 13).append (by decide) _)
    (h.operand.selected (fun rest _ => .of_symbol (by decide) (by decide)) ?_ (by simp))
  intro budget object' rest output P _ hobject hrest hnext
  rw [selectors]
  refine reads_peekSymbol.given ((reads_advance _).after fun _ => ?_)
  refine (reads_expectIdent name).given ?_
  change Reads _ rest output P
  refine (reads_sees .lParen).given ?_
  rw [beq_eq_false_iff_ne.2 hrest.paren]
  refine (reads_since _).after fun span' => hnext _ ?_
  rw [SameTree, Expr.bare, Expr.bare, hobject]
  rfl

theorem takes_memberCall {args : List Expr} (h : Takes object) (hargs : ∀ e ∈ args, Takes e)
    (span : Span) (name : String) : Takes (.memberCall { span } object name args) := by
  refine takes_of_operand _ rfl ((h.headed 13).append (by decide) _)
    (h.operand.selected (fun rest _ => .of_symbol (by decide) (by decide)) ?_ (by simp))
  intro budget object' rest output P hb hobject hrest hnext
  rw [List.length_cons, List.length_cons, length_inParentheses] at hb
  rw [selectors]
  refine reads_peekSymbol.given ((reads_advance _).after fun _ => ?_)
  refine (reads_expectIdent name).given ((reads_sees .lParen).given ?_)
  refine (reads_arguments hargs (by omega) rest).bind fun es hes => ?_
  refine (reads_since _).after fun span' => hnext _ ?_
  rw [SameTree, Expr.bare, Expr.bare, hobject, hes]
  rfl

/-- A name in brackets is an index if no arguments follow. -/
theorem Uncalled.bracketed {rest : List Token} (h : Headed ts) (hrest : Uncalled rest) :
    Uncalled (.symbol .lBracket :: (ts ++ [.symbol .rBracket]) ++ rest) where
  paren := nofun
  generator := by
    obtain ⟨t, more, rfl, -, hbracket⟩ := h
    cases more with
    | nil =>
      have hparen : isSymbol .lParen rest[0]? = false := by
        rw [← List.head?_eq_getElem?, isSymbol_head?, beq_eq_false_iff_ne]
        exact hrest.paren
      simp [generatorAhead, hparen]
    | cons t' more =>
      by_cases ht : isIdent (some t) = true
      · have hclose : isSymbol .rBracket (some t') = false := by
          rw [← List.head?_cons (l := more), isSymbol_head?, beq_eq_false_iff_ne]
          exact hbracket ht
        simp [generatorAhead, hclose]
      · simp [generatorAhead, ht]

theorem takes_element {array index : Expr} (ha : Takes array) (hi : Takes index) (span : Span) :
    Takes (.element { span } array index) := by
  refine takes_of_operand _ rfl ((ha.headed 13).append (by decide) _)
    (ha.operand.selected (fun rest hrest => .bracketed (hi.headed 0) hrest) ?_ (by simp))
  intro budget array' rest output P hb harray hrest hnext
  rw [List.length_cons, List.length_append] at hb
  rw [selectors, List.cons_append, List.append_assoc]
  refine reads_peekSymbol.given ((reads_advance _).after fun _ => ?_)
  refine (hi.assigning.reads budget _ (by omega) (.closing rfl)).bind fun index' hindex => ?_
  refine (reads_expect _).after fun _ => (reads_since _).after fun span' => hnext _ ?_
  rw [SameTree, Expr.bare, Expr.bare, harray, hindex]
  rfl

theorem takes_stepAfter (h : Takes operand) (span : Span) (op : StepOp) :
    Takes (.step { span } op false operand) := by
  refine takes_of_operand _ rfl ((h.headed 13).append ?_ _)
    (h.operand.selected (fun rest _ => ?_) ?_ (by simp))
  · cases op <;> decide
  · cases op <;> exact .of_symbol (by decide) (by decide)
  · intro budget operand' rest output P hb hoperand hrest hnext
    rw [selectors]
    refine reads_peekSymbol.given ?_
    cases op
    all_goals
      refine (reads_advance _).after fun _ => (reads_since _).after fun span' => hnext _ ?_
      rw [SameTree, Expr.bare, Expr.bare, hoperand]
      rfl

/-! ## Signs and powers -/

theorem takes_unary (h : Takes operand) (span : Span) (op : UnaryOp) :
    Takes (.unary { span } op operand) := by
  have hmark : unaryOp? op.mark = some op := by cases op <;> rfl
  refine takes_of_signed (.symbol op.mark :: operand.tokensAt 12) rfl rfl (headed_symbol ?_ _)
    fun budget rest hb hrest => ?_
  · cases op <;> decide
  rw [List.length_cons] at hb
  rw [Reader.signed]
  refine reads_peekSpan.after fun start => reads_peek.given ?_
  simp only [List.cons_append, List.head?_cons, hmark]
  refine (reads_advance _).after fun _ => ?_
  refine (h.signed.reads _ rest (by omega) hrest).bind fun operand' hoperand => .pure ?_
  rw [SameTree, Expr.bare, Expr.bare, hoperand]
  rfl

theorem takes_stepBefore (h : Takes operand) (span : Span) (op : StepOp) :
    Takes (.step { span } op true operand) := by
  have hmark : unaryOp? op.mark = none ∧ stepOp? op.mark = some op := by
    cases op <;> exact ⟨rfl, rfl⟩
  refine takes_of_signed (.symbol op.mark :: operand.tokensAt 12) rfl rfl (headed_symbol ?_ _)
    fun budget rest hb hrest => ?_
  · cases op <;> decide
  rw [List.length_cons] at hb
  rw [Reader.signed]
  refine reads_peekSpan.after fun start => reads_peek.given ?_
  simp only [List.cons_append, List.head?_cons, hmark.1, hmark.2]
  refine (reads_advance _).after fun _ => ?_
  refine (h.signed.reads _ rest (by omega) hrest).bind fun operand' hoperand => .pure ?_
  rw [SameTree, Expr.bare, Expr.bare, hoperand]
  rfl

theorem takes_storage (h : Takes operand) (span : Span) (op : StorageOp) :
    Takes (.storage { span } op operand) := by
  have hword : storageOp? op.word = some op := by cases op <;> rfl
  refine takes_of_signed (.keyword op.word :: inParentheses operand.tokens) rfl rfl
    (headed_keyword _ _) fun budget rest hb hrest => ?_
  rw [List.length_cons, length_inParentheses] at hb
  rw [Reader.signed]
  refine reads_peekSpan.after fun start => reads_peek.given ?_
  simp only [List.cons_append, List.head?_cons, hword]
  refine (reads_advance _).after fun _ => ?_
  refine (reads_inParens h.assigning (by omega) rest).bind fun operand' hoperand => ?_
  refine (reads_since start).after fun span' => .pure ?_
  rw [SameTree, Expr.bare, Expr.bare, hoperand]
  rfl

theorem takes_power (hl : Takes l) (hr : Takes r) (span : Span) :
    Takes (.binary { span } .pow l r) := by
  refine takes_of_signed (l.tokensAt 13 ++ .symbol .starStar :: r.tokensAt 12) rfl rfl
    ((hl.headed 13).append (by decide) _) fun budget rest hb hrest => ?_
  rw [List.length_append, List.length_cons] at hb
  rw [List.append_assoc]
  refine reads_signed (hl.operand.begins.append _) ?_
  rw [raised]
  have hstop : Closes 13 (.symbol .starStar :: r.tokensAt 12 ++ rest) := .symbol fun k hk => by
    cases hk
    omega
  refine (hl.operand.closed (by omega) hstop).bind fun l' hl' => ?_
  refine (reads_eat _).given ?_
  refine (hr.signed.reads budget rest (by omega) hrest).bind fun r' hr' => .pure ?_
  rw [SameTree, Expr.bare, Expr.bare, hl', hr']
  rfl

/-! ## Operators, choices and assignments -/

/-- A tree with an operator between two operands. The left one may have the same power. -/
theorem takes_infixed {p : Nat} {op : InfixOp} (hop : infixOp? mark = some (p, op))
    (htokens : e.tokens = l.tokensAt (p + 1) ++ .symbol mark :: r.tokensAt (p + 2))
    (hlevel : e.level = p + 1) (hl : Takes l) (hr : Takes r)
    (hsame : ∀ l' r', SameTree l l' → SameTree r r' → SameTree e (op.apply l' r')) : Takes e := by
  obtain ⟨hjoins, hp, hp'⟩ := Symbol.joins?_of_infixOp? hop
  refine takes_of_binary _ htokens hlevel hp hp' ((hl.headed _).append ?_ _)
    ⟨List.length_pos_iff.2 (by simp),
      fun budget power rest output P hpower hb hrest hrest' hnext => ?_⟩
  · rintro rfl
    cases hop
  rw [List.length_append, List.length_cons] at hb hnext
  rw [List.append_assoc]
  have hstop (place : Nat) (hplace : p + 1 < place) :
      Closes place (.symbol mark :: r.tokensAt (p + 2) ++ rest) := .symbol fun k hk => by
    cases hjoins.symm.trans hk
    exact hplace
  have hleft : ByBinary p (l.tokensAt (p + 1)) l := hl.binary p hp (by omega)
  have hright : ByBinary (p + 1) (r.tokensAt (p + 2)) r := hr.binary (p + 1) (by omega) (by omega)
  have hpos := hleft.pos
  refine hleft.reads budget power _ output P hpower (by omega) (hstop 12 (by omega))
    (hstop (p + 2) (by omega)) fun budget' l' hb' hl' => ?_
  obtain ⟨budget', rfl⟩ : ∃ n, budget' = n + 1 := ⟨budget' - 1, by omega⟩
  rw [operators]
  refine reads_peekSymbol.given ?_
  simp only [List.cons_append, symbolAhead, Option.bind_some, hop]
  rw [if_neg (by omega)]
  refine (reads_advance _).after fun _ => ?_
  refine (hright.closed (by omega) (by omega) (by omega) hrest').bind fun r' hr' => ?_
  exact hnext budget' _ (by omega) (hsame l' r' hl' hr')

theorem takes_binary (hl : Takes l) (hr : Takes r) (span : Span) {op : BinOp} (hop : op ≠ .pow) :
    Takes (.binary { span } op l r) := by
  have hsame (l' r' : Expr) (hl' : SameTree l l') (hr' : SameTree r r') :
      SameTree (.binary { span } op l r) ((InfixOp.plain op).apply l' r') := by
    rw [SameTree, InfixOp.apply, Expr.bare, Expr.bare, hl', hr']
    rfl
  have hmark : infixOp? op.mark = some (op.power, .plain op) := by
    cases op <;> first | rfl | exact absurd rfl hop
  refine takes_infixed hmark ?_ rfl hl hr hsame
  cases op <;> first | rfl | exact absurd rfl hop

theorem takes_logical (hl : Takes l) (hr : Takes r) (span : Span) (op : LogicalOp) :
    Takes (.logical { span } op l r) := by
  have hmark : infixOp? op.mark = some (op.power, .logical op) := by cases op <;> rfl
  refine takes_infixed hmark rfl rfl hl hr fun l' r' hl' hr' => ?_
  rw [SameTree, InfixOp.apply, Expr.bare, Expr.bare, hl', hr']
  rfl

theorem takes_conditional {cond whenTrue whenFalse : Expr} (hc : Takes cond)
    (ht : Takes whenTrue) (hf : Takes whenFalse) (span : Span) :
    Takes (.conditional { span } cond whenTrue whenFalse) := by
  refine takes_of_conditional (cond.tokensAt 2 ++ .symbol .question :: (whenTrue.tokens ++
    .symbol .colon :: whenFalse.tokensAt 1)) rfl rfl ((hc.headed 2).append (by decide) _)
    ⟨List.length_pos_iff.2 (by simp), fun budget rest hb hrest => ?_⟩
  simp only [List.length_append, List.length_cons] at hb
  obtain ⟨budget, rfl⟩ : ∃ n, budget = n + 1 := ⟨budget - 1, by omega⟩
  rw [Reader.conditional, List.append_assoc, List.cons_append, List.append_assoc]
  have hstop : Closes 2 (.symbol .question :: (whenTrue.tokens ++
      (.symbol .colon :: whenFalse.tokensAt 1 ++ rest))) := .symbol fun k hk => by
    cases hk
    omega
  have hbinary : ByBinary 1 (cond.tokensAt 2) cond := hc.binary 1 (by omega) (by omega)
  refine (hbinary.closed (by omega) (by omega) (by omega) hstop).bind fun cond' hcond => ?_
  refine (reads_eat _).given ?_
  refine (ht.assigning.reads budget _ (by omega) (.closing rfl)).bind fun whenTrue' htrue => ?_
  refine (reads_expect _).after fun _ => ?_
  refine (hf.conditional.reads budget rest (by omega) hrest).bind fun whenFalse' hfalse => .pure ?_
  rw [SameTree, Expr.bare, Expr.bare, hcond, htrue, hfalse]
  rfl

/-- A tree with an assignment symbol between its sides. -/
theorem takes_assigned {op : Option BinOp} (hop : assignOp? mark = some op)
    (htokens : e.tokens = l.tokensAt 1 ++ .symbol mark :: r.tokens) (hlevel : e.level = 0)
    (hl : Takes l) (hr : Takes r)
    (hsame : ∀ span l' r', SameTree l l' → SameTree r r' → SameTree e (assignment op span l' r')) :
    Takes e := by
  have hjoins := Symbol.joins?_of_assignOp? hop
  refine takes_of_assigning _ htokens hlevel ((hl.headed 1).append ?_ _)
    ⟨List.length_pos_iff.2 (by simp), fun budget rest hb hrest => ?_⟩
  · rintro rfl
    cases hop
  rw [List.length_append, List.length_cons] at hb
  obtain ⟨budget, rfl⟩ : ∃ n, budget = n + 1 := ⟨budget - 1, by omega⟩
  rw [Reader.assigning, List.append_assoc]
  have hstop : Closes 1 (.symbol mark :: r.tokens ++ rest) := .symbol fun k hk => by
    cases hjoins.symm.trans hk
    omega
  refine (hl.conditional.reads budget _ (by omega) hstop).bind fun l' hl' => ?_
  refine reads_peekSymbol.given ?_
  simp only [List.cons_append, symbolAhead, Option.bind_some, hop]
  refine reads_peekSpan.after fun opSpan => (reads_advance _).after fun _ => ?_
  refine (hr.assigning.reads budget rest (by omega) hrest).bind fun r' hr' => .pure ?_
  exact hsame opSpan l' r' hl' hr'

/-- A value that is read does not read the left side, so that it is assigned plainly. -/
theorem Expr.tokens_assign {value : Expr} (h : value.isWhole = true) (m : Mark) (target : Expr) :
    (Expr.assign m target value).tokens = target.tokensAt 1 ++ .symbol .assign :: value.tokens := by
  cases value with
  | binary m op left right => cases left <;> first | rfl | cases h
  | _ => rfl

theorem takes_assign (hl : Takes l) (hr : Takes r) (hvalue : r.isWhole = true) (span : Span) :
    Takes (.assign { span } l r) := by
  have hop : assignOp? .assign = some none := rfl
  refine takes_assigned hop (Expr.tokens_assign hvalue _ l) rfl hl hr fun _ l' r' hl' hr' => ?_
  rw [SameTree, assignment, Expr.bare, Expr.bare, hl', hr']
  rfl

theorem takes_compound {op : BinOp} (hmark : op.assignMark? = some mark) (hl : Takes l)
    (hr : Takes r) (span valueSpan opSpan : Span) :
    Takes (.assign { span } l
      (.binary { span := valueSpan } op (.assigned { span := opSpan }) r)) := by
  have hop : assignOp? mark = some (some op) := by cases op <;> cases hmark <;> rfl
  refine takes_assigned hop ?_ rfl hl hr fun _ l' r' hl' hr' => ?_
  · rw [Expr.tokens, hmark]
    rfl
  · simp only [SameTree, assignment, Expr.bare, show l'.bare = l.bare from hl',
      show r'.bare = r.bare from hr']
    rfl

/-! ## All trees -/

/-- The readers take the tokens of every tree that they give, whatever its span. -/
theorem Phrase.takes_withSpan {place : Nat} {ts : List Lexed} (h : Phrase place ts e) :
    ∀ span, Takes (e.withSpan span) := by
  have itself {e : Expr} (h : ∀ span, Takes (e.withSpan span)) : Takes e :=
    e.withSpan_span ▸ h e.span
  have each {parts : List (List Lexed × Expr)}
      (h : ∀ p ∈ parts, ∀ span, Takes (p.2.withSpan span)) :
      ∀ e ∈ parts.map Prod.snd, Takes e := by
    simpa using fun e ts hp => itself (h (ts, e) hp)
  induction h with intro span
  | looser _ _ ih => exact ih span
  | parens _ ih => exact (Expr.withSpan_withSpan _ _ _).symm ▸ ih span
  | constant hvalue => exact takes_constant hvalue span
  | selfRef => exact takes_selfRef span
  | identifier => exact takes_identifier span _
  | call hname _ _ ih => exact takes_call hname (each ih) span
  | callWith _ _ ih => exact takes_callWith _ _ (each ih) span
  | cast htarget _ ih => exact takes_cast htarget (itself ih) span
  | classCast _ ih => exact takes_classCast _ (itself ih) span
  | member _ ih => exact takes_member (itself ih) span _
  | memberCall _ _ _ ih ihs => exact takes_memberCall (itself ih) (each ihs) span _
  | element _ _ iha ihi => exact takes_element (itself iha) (itself ihi) span
  | stepAfter _ ih => exact takes_stepAfter (itself ih) span _
  | raised _ _ ihl ihr => exact takes_power (itself ihl) (itself ihr) span
  | unary _ ih => exact takes_unary (itself ih) span _
  | stepBefore _ ih => exact takes_stepBefore (itself ih) span _
  | storage _ ih => exact takes_storage (itself ih) span _
  | @joined _ mark p op _ _ _ _ hop _ _ ihl ihr =>
    cases op with
    | plain op =>
      exact takes_binary (itself ihl) (itself ihr) span fun hpow => by
        cases mark <;> cases hop <;> cases hpow
    | logical op => exact takes_logical (itself ihl) (itself ihr) span op
  | conditional _ _ _ ihc iht ihf => exact takes_conditional (itself ihc) (itself iht) (itself ihf) span
  | @assigned _ mark op _ _ _ _ hop _ hr ihl ihr =>
    cases op with
    | none => exact takes_assign (itself ihl) (itself ihr) hr.isWhole span
    | some op =>
      have hmark : op.assignMark? = some mark := by cases mark <;> cases hop <;> rfl
      exact takes_compound hmark (itself ihl) (itself ihr) span _ _

theorem Phrase.takes {place : Nat} {ts : List Lexed} (h : Phrase place ts e) : Takes e :=
  e.withSpan_span ▸ h.takes_withSpan e.span

end ActorScript
