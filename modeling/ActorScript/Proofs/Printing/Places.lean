import ActorScript.Proofs.Printing.Reading

/-! # Places in the grammar

Each reader of the grammar takes trees from some level on. What one of them takes, the looser ones
take too, as long as the tokens behind the tree do not go on with it; and in parentheses every
tree is an operand.
-/

namespace ActorScript

open Reader

variable {mark : Symbol} {ts rest : List Token} {e : Expr} {budget top : Nat}

/-! ## What ends a tree -/

/-- The level at which a symbol goes on with the tree in front of it. -/
def Symbol.joins? (mark : Symbol) : Option Nat :=
  match mark with
  | lParen | dot | lBracket | plusPlus | minusMinus => some 13
  | starStar => some 12
  | question => some 1
  | _ => if (assignOp? mark).isSome then some 0 else (infixOp? mark).map fun p => p.1 + 1

theorem Symbol.joins?_of_infixOp? {p : Nat} {op : InfixOp} (h : infixOp? mark = some (p, op)) :
    mark.joins? = some (p + 1) ∧ 1 ≤ p ∧ p ≤ 10 := by
  cases mark <;> cases h <;> exact ⟨rfl, by omega, by omega⟩

theorem Symbol.joins?_of_assignOp? {op : Option BinOp} (h : assignOp? mark = some op) :
    mark.joins? = some 0 := by
  cases mark <;> cases h <;> rfl

theorem Symbol.joins?_of_stepOp? {op : StepOp} (h : stepOp? mark = some op) :
    mark.joins? = some 13 := by
  cases mark <;> cases h <;> rfl

/-- The tokens do not go on with a tree in a place of the level. -/
def Closes (place : Nat) (ts : List Token) : Prop :=
  ∀ mark k, symbolAhead ts = some mark → mark.joins? = some k → k < place

namespace Closes

variable {place place' : Nat} {ts : List Token}

theorem mono (h : Closes place ts) (hle : place ≤ place') : Closes place' ts :=
  fun mark k hmark hk => Nat.lt_of_lt_of_le (h mark k hmark hk) hle

theorem nil : Closes place [] :=
  nofun

theorem symbol (h : ∀ k, mark.joins? = some k → k < place) : Closes place (.symbol mark :: ts) := by
  rintro _ k ⟨rfl⟩
  exact h k

theorem closing (h : mark.joins? = none) : Closes place (.symbol mark :: ts) :=
  symbol fun _ hk => nomatch h.symm.trans hk

theorem not_ahead (h : Closes place ts) (mark : Symbol) {k : Nat} (hk : mark.joins? = some k)
    (hle : place ≤ k) : symbolAhead ts ≠ some mark :=
  fun hmark => absurd (h mark k hmark hk) (Nat.not_lt.2 hle)

end Closes

/-- The tokens do not make a call of the name in front of them. -/
structure Uncalled (ts : List Token) : Prop where
  paren : symbolAhead ts ≠ some .lParen
  generator : generatorAhead ts = false

theorem Uncalled.of_symbol (hparen : mark ≠ .lParen) (hbracket : mark ≠ .lBracket) :
    Uncalled (.symbol mark :: ts) where
  paren h := hparen (Option.some.inj h)
  generator := by simp [generatorAhead, isSymbol, hbracket]

theorem Uncalled.of_closes (h : Closes 13 ts) : Uncalled ts where
  paren := h.not_ahead .lParen rfl (Nat.le_refl 13)
  generator := by simp [generatorAhead, h.not_ahead .lBracket rfl (Nat.le_refl 13)]

/-! ## Places -/

/-- Trees that differ in spans only. -/
def SameTree (e e' : Expr) : Prop :=
  e'.bare = e.bare

theorem SameTree.withSpan {e' : Expr} (h : SameTree e e') (span : Span) :
    SameTree e (e'.withSpan span) := by
  refine Eq.trans ?_ h
  cases e' <;> rfl

def Token.isSign : Token → Bool
  | .symbol mark => (unaryOp? mark).isSome || (stepOp? mark).isSome
  | .keyword word => (storageOp? word).isSome
  | _ => false

def Begins (ts : List Token) : Prop :=
  ∃ t more, ts = t :: more ∧ t.isSign = false

theorem Begins.append (h : Begins ts) (rest : List Token) : Begins (ts ++ rest) := by
  obtain ⟨t, more, rfl, ht⟩ := h
  exact ⟨t, more ++ rest, rfl, ht⟩

theorem Begins.length_pos (h : Begins ts) : 0 < ts.length := by
  obtain ⟨t, more, rfl, -⟩ := h
  exact Nat.succ_pos _

/-- A tree taken as an operand, which may go on behind it. -/
structure ByOperand (ts : List Token) (e : Expr) : Prop where
  begins : Begins ts
  reads : ∀ budget rest output P, 16 * ts.length ≤ budget + 5 → Uncalled rest →
    (∀ budget' e', budget ≤ budget' + ts.length → SameTree e e' →
      Reads (selectors budget' e') rest output P) →
    Reads (operand budget) (ts ++ rest) output P

structure BySigned (ts : List Token) (e : Expr) : Prop where
  pos : 0 < ts.length
  reads : ∀ budget rest, 16 * ts.length ≤ budget + 3 → Closes 12 rest →
    Reads (signed budget) (ts ++ rest) rest (SameTree e)

/-- A tree taken beside operators that bind looser than `top`; the operators of this power may go
on behind it. -/
structure ByBinary (top : Nat) (ts : List Token) (e : Expr) : Prop where
  pos : 0 < ts.length
  reads : ∀ budget power rest output P, power < top → 16 * ts.length ≤ budget + 2 →
    Closes 12 rest → Closes (top + 2) rest →
    (∀ budget' e', budget ≤ budget' + ts.length → SameTree e e' →
      Reads (operators budget' power e') rest output P) →
    Reads (binary budget power) (ts ++ rest) output P

structure ByConditional (ts : List Token) (e : Expr) : Prop where
  pos : 0 < ts.length
  reads : ∀ budget rest, 16 * ts.length ≤ budget + 1 → Closes 1 rest →
    Reads (conditional budget) (ts ++ rest) rest (SameTree e)

structure ByAssigning (ts : List Token) (e : Expr) : Prop where
  pos : 0 < ts.length
  reads : ∀ budget rest, 16 * ts.length ≤ budget → Closes 0 rest →
    Reads (assigning budget) (ts ++ rest) rest (SameTree e)

/-! ## Where reading stops -/

theorem reads_selectors_stop (hb : 0 < budget) (h : Closes 13 rest) (e : Expr) :
    Reads (selectors budget e) rest rest (· = e) := by
  obtain ⟨budget, rfl⟩ := Nat.exists_eq_add_one.2 hb
  rw [selectors]
  refine reads_peekSymbol.given ?_
  cases hmark : symbolAhead rest with
  | none => exact .pure rfl
  | some mark =>
    have hdot : mark ≠ .dot := fun heq =>
      h.not_ahead .dot rfl (Nat.le_refl 13) (heq ▸ hmark)
    have hbracket : mark ≠ .lBracket := fun heq =>
      h.not_ahead .lBracket rfl (Nat.le_refl 13) (heq ▸ hmark)
    have hstep : stepOp? mark = none := by
      cases hop : stepOp? mark with
      | none => rfl
      | some op =>
        exact absurd hmark (h.not_ahead mark (Symbol.joins?_of_stepOp? hop) (Nat.le_refl 13))
    split
    · exact absurd (Option.some.inj ‹_›) hdot
    · exact absurd (Option.some.inj ‹_›) hbracket
    · next heq =>
      cases heq
      rw [hstep]
      exact .pure rfl
    · exact .pure rfl

theorem reads_operators_stop {power : Nat} (hb : 0 < budget) (h : Closes (power + 2) rest)
    (e : Expr) : Reads (operators budget power e) rest rest (· = e) := by
  obtain ⟨budget, rfl⟩ := Nat.exists_eq_add_one.2 hb
  rw [operators]
  refine reads_peekSymbol.given ?_
  split
  · exact .pure rfl
  · next p op heq =>
    obtain ⟨mark, hmark, hop⟩ := Option.bind_eq_some_iff.1 heq
    have := h mark _ hmark (Symbol.joins?_of_infixOp? hop).1
    rw [if_pos (by omega)]
    exact .pure rfl

theorem ByOperand.closed (h : ByOperand ts e) (hb : 16 * ts.length ≤ budget + 5)
    (hrest : Closes 13 rest) : Reads (operand budget) (ts ++ rest) rest (SameTree e) := by
  have hpos := h.begins.length_pos
  refine h.reads budget rest rest _ hb (.of_closes hrest) fun budget' e' hb' he => ?_
  exact (reads_selectors_stop (by omega) hrest e').mono fun _ heq => heq ▸ he

theorem ByBinary.closed (h : ByBinary top ts e) {power : Nat} (hpower : power < top)
    (htop : top ≤ 11) (hb : 16 * ts.length ≤ budget + 2) (hrest : Closes (power + 2) rest) :
    Reads (binary budget power) (ts ++ rest) rest (SameTree e) := by
  have hpos := h.pos
  refine h.reads budget power rest rest _ hpower hb (hrest.mono (by omega))
    (hrest.mono (by omega)) fun budget' e' hb' he => ?_
  exact (reads_operators_stop (by omega) hrest e').mono fun _ heq => heq ▸ he

/-! ## From tight places to loose ones -/

theorem reads_signed {output : List Token} {P : Expr → Prop} (h : Begins ts)
    (hraised : Reads (raised budget) ts output P) : Reads (signed (budget + 1)) ts output P := by
  obtain ⟨t, more, rfl, ht⟩ := h
  rw [signed]
  refine reads_peekSpan.after fun start => reads_peek.given ?_
  cases t with
  | symbol mark =>
    simp only [Token.isSign, Bool.or_eq_false_iff, Option.isSome_eq_false_iff,
      Option.isNone_iff_eq_none] at ht
    simp only [List.head?_cons, ht.1, ht.2]
    exact hraised
  | keyword word =>
    simp only [Token.isSign, Option.isSome_eq_false_iff, Option.isNone_iff_eq_none] at ht
    simp only [List.head?_cons, ht]
    exact hraised
  | float | int | string | name | ident => exact hraised

theorem ByOperand.bySigned (h : ByOperand ts e) : BySigned ts e where
  pos := h.begins.length_pos
  reads budget rest hb hrest := by
    have hpos := h.begins.length_pos
    obtain ⟨budget, rfl⟩ : ∃ n, budget = n + 2 := ⟨budget - 2, by omega⟩
    refine reads_signed (h.begins.append rest) ?_
    rw [raised]
    refine (h.closed (by omega) (hrest.mono (by omega))).bind fun e' he => ?_
    exact (reads_eat_other (hrest.not_ahead .starStar rfl (Nat.le_refl 12))).given (.pure he)

theorem BySigned.byBinary (h : BySigned ts e) : ByBinary 11 ts e where
  pos := h.pos
  reads budget power rest output P hpower hb hrest _ hnext := by
    have hpos := h.pos
    obtain ⟨budget, rfl⟩ : ∃ n, budget = n + 1 := ⟨budget - 1, by omega⟩
    rw [binary]
    exact (h.reads budget rest (by omega) hrest).bind fun e' he => hnext budget e' (by omega) he

theorem ByBinary.mono {top' : Nat} (h : ByBinary top ts e) (hle : top' ≤ top) :
    ByBinary top' ts e where
  pos := h.pos
  reads budget power rest output P hpower hb hrest hrest' hnext :=
    h.reads budget power rest output P (by omega) hb hrest (hrest'.mono (by omega)) hnext

theorem ByBinary.byConditional (h : ByBinary top ts e) (htop : 0 < top) (htop' : top ≤ 11) :
    ByConditional ts e where
  pos := h.pos
  reads budget rest hb hrest := by
    have hpos := h.pos
    obtain ⟨budget, rfl⟩ : ∃ n, budget = n + 1 := ⟨budget - 1, by omega⟩
    rw [conditional]
    refine (h.closed htop htop' (by omega) (hrest.mono (by omega))).bind fun e' he => ?_
    exact (reads_eat_other (hrest.not_ahead .question rfl (Nat.le_refl 1))).given (.pure he)

theorem ByConditional.byAssigning (h : ByConditional ts e) : ByAssigning ts e where
  pos := h.pos
  reads budget rest hb hrest := by
    have hpos := h.pos
    obtain ⟨budget, rfl⟩ : ∃ n, budget = n + 1 := ⟨budget - 1, by omega⟩
    rw [assigning]
    refine (h.reads budget rest (by omega) (hrest.mono (by omega))).bind fun e' he => ?_
    refine reads_peekSymbol.given ?_
    split
    · exact .pure he
    · next op heq =>
      obtain ⟨mark, hmark, hop⟩ := Option.bind_eq_some_iff.1 heq
      exact absurd hmark (hrest.not_ahead mark (Symbol.joins?_of_assignOp? hop) (Nat.le_refl 0))

/-! ## Parentheses -/

theorem reads_inParens (h : ByAssigning ts e) (hb : 16 * ts.length < budget) (rest : List Token) :
    Reads (inParens budget) (inParentheses ts ++ rest) rest (SameTree e) := by
  obtain ⟨budget, rfl⟩ : ∃ n, budget = n + 1 := ⟨budget - 1, by omega⟩
  rw [inParens, inParentheses, List.cons_append, List.append_assoc]
  refine (reads_expect _).after fun _ => ?_
  refine (h.reads budget _ (by omega) (.closing rfl)).bind fun e' he => ?_
  exact (reads_expect _).after fun _ => .pure he

theorem length_inParentheses (ts : List Token) : (inParentheses ts).length = ts.length + 2 := by
  simp [inParentheses]

theorem ByAssigning.inParentheses (h : ByAssigning ts e) : ByOperand (inParentheses ts) e where
  begins := ⟨_, _, rfl, rfl⟩
  reads budget rest output P hb _ hnext := by
    rw [length_inParentheses] at hb hnext
    obtain ⟨budget, rfl⟩ : ∃ n, budget = n + 2 := ⟨budget - 2, by omega⟩
    rw [operand]
    refine Reads.bind (P := SameTree e) ?_ fun e' he => hnext _ e' (by omega) he
    rw [primary]
    refine reads_peekSpan.after fun start => reads_peek.given ?_
    refine Reads.given (a := none) (.pure rfl) ?_
    refine (reads_inParens h (by omega) rest).bind fun e' he => ?_
    exact (reads_since start).bind fun span _ => .pure (he.withSpan span)

/-! ## Trees in every place -/

/-- The first token of a tree does not close anything, and a name is not closed behind it. -/
def Headed (ts : List Token) : Prop :=
  ∃ t more, ts = t :: more ∧ t ≠ .symbol .rParen ∧
    (isIdent (some t) = true → symbolAhead more ≠ some .rBracket)

theorem Headed.append (h : Headed ts) (hmark : mark ≠ .rBracket) (rest : List Token) :
    Headed (ts ++ .symbol mark :: rest) := by
  obtain ⟨t, more, rfl, hparen, hbracket⟩ := h
  refine ⟨t, more ++ .symbol mark :: rest, rfl, hparen, fun ht => ?_⟩
  cases more with
  | nil => exact fun heq => hmark (Option.some.inj heq)
  | cons t' more => cases t' <;> exact hbracket ht

theorem headed_symbol (hmark : mark ≠ .rParen) (rest : List Token) :
    Headed (.symbol mark :: rest) :=
  ⟨_, rest, rfl, fun heq => hmark (Token.symbol.inj heq), nofun⟩

theorem headed_keyword (k : Keyword) (rest : List Token) : Headed (.keyword k :: rest) :=
  ⟨_, rest, rfl, Token.noConfusion, fun hident => Bool.noConfusion hident⟩

theorem headed_inParentheses (ts : List Token) : Headed (inParentheses ts) :=
  headed_symbol (by decide) _

theorem Expr.tokensAt_cases (e : Expr) {place : Nat} (M : List Token → Prop)
    (hparens : M (inParentheses e.tokens)) (hplain : place ≤ e.level → M e.tokens) :
    M (e.tokensAt place) := by
  unfold Expr.tokensAt Expr.enclose
  split
  · exact hparens
  · next h => exact hplain (Nat.le_of_not_lt h)

/-- The readers take the tree in every place. -/
structure Takes (e : Expr) : Prop where
  headed : ∀ place, Headed (e.tokensAt place)
  operand : ByOperand (e.tokensAt 13) e
  signed : BySigned (e.tokensAt 12) e
  binary : ∀ top, 0 < top → top ≤ 11 → ByBinary top (e.tokensAt (top + 1)) e
  conditional : ByConditional (e.tokensAt 1) e
  assigning : ByAssigning e.tokens e

section Assembly

variable {e : Expr} (ts : List Token)

/-- A tree is taken as it is from its own level on, and in parentheses everywhere. -/
theorem ByAssigning.takes (h : ByAssigning e.tokens e) (hhead : Headed e.tokens)
    (hconditional : 1 ≤ e.level → ByConditional e.tokens e)
    (hbinary : ∀ top, 0 < top → top ≤ 11 → top + 1 ≤ e.level → ByBinary top e.tokens e)
    (hsigned : 12 ≤ e.level → BySigned e.tokens e)
    (hoperand : 13 ≤ e.level → ByOperand e.tokens e) : Takes e := by
  have hin := h.inParentheses
  exact {
    headed := fun _ => e.tokensAt_cases Headed (headed_inParentheses _) fun _ => hhead
    operand := e.tokensAt_cases (ByOperand · e) hin hoperand
    signed := e.tokensAt_cases (BySigned · e) hin.bySigned hsigned
    binary := fun top htop htop' => e.tokensAt_cases (ByBinary top · e)
      (hin.bySigned.byBinary.mono htop') (hbinary top htop htop')
    conditional := e.tokensAt_cases (ByConditional · e)
      (hin.bySigned.byBinary.byConditional (by omega) (by omega)) hconditional
    assigning := h }

theorem takes_of_assigning (htokens : e.tokens = ts) (hlevel : e.level = 0) (hhead : Headed ts)
    (h : ByAssigning ts e) : Takes e := by
  subst htokens
  exact h.takes hhead (fun _ => by omega) (fun _ _ _ _ => by omega) (fun _ => by omega)
    (fun _ => by omega)

theorem takes_of_conditional (htokens : e.tokens = ts) (hlevel : e.level = 1) (hhead : Headed ts)
    (h : ByConditional ts e) : Takes e := by
  subst htokens
  exact h.byAssigning.takes hhead (fun _ => h) (fun _ _ _ _ => by omega) (fun _ => by omega)
    (fun _ => by omega)

theorem takes_of_binary {p : Nat} (htokens : e.tokens = ts) (hlevel : e.level = p + 1)
    (hp : 0 < p) (hp' : p ≤ 10) (hhead : Headed ts) (h : ByBinary p ts e) : Takes e := by
  subst htokens
  have hconditional := h.byConditional hp (by omega)
  exact hconditional.byAssigning.takes hhead (fun _ => hconditional)
    (fun top _ _ htop => h.mono (by omega)) (fun _ => by omega) (fun _ => by omega)

theorem takes_of_signed (htokens : e.tokens = ts) (hlevel : e.level = 12) (hhead : Headed ts)
    (hreads : ∀ budget rest, 16 * ts.length ≤ budget + 5 → Closes 12 rest →
      Reads (signed (budget + 2)) (ts ++ rest) rest (SameTree e)) : Takes e := by
  subst htokens
  have hpos : 0 < e.tokens.length := by
    obtain ⟨t, more, htokens, -⟩ := hhead
    simp [htokens]
  have h : BySigned e.tokens e := ⟨hpos, fun budget rest hb hrest => by
    obtain ⟨budget, rfl⟩ : ∃ n, budget = n + 2 := ⟨budget - 2, by omega⟩
    exact hreads budget rest (by omega) hrest⟩
  have hconditional := h.byBinary.byConditional (by omega) (by omega)
  exact hconditional.byAssigning.takes hhead (fun _ => hconditional)
    (fun top _ htop _ => h.byBinary.mono htop) (fun _ => h) (fun _ => by omega)

theorem takes_of_operand (htokens : e.tokens = ts) (hhead : Headed ts) (h : ByOperand ts e) :
    Takes e := by
  subst htokens
  have hconditional := h.bySigned.byBinary.byConditional (by omega) (by omega)
  exact hconditional.byAssigning.takes hhead (fun _ => hconditional)
    (fun top _ htop _ => h.bySigned.byBinary.mono htop) (fun _ => h.bySigned) (fun _ => h)

end Assembly

end ActorScript
