import ActorScript.Proofs.Printing.ReadBack

/-! # Trees are not read from fewer tokens

The readers of the grammar give trees of the grammar, and they pass over at least as many tokens
as it takes to write the tree. So a written tree has no parentheses that it could do without.
-/

namespace ActorScript

open Reader

/-! ## How long trees are -/

namespace Expr

variable {e : Expr} {place place' : Nat}

theorem enclose_tokens : e.enclose place e.tokens = e.tokensAt place :=
  rfl

theorem tokensAt_of_le (h : place ≤ e.level) : e.tokensAt place = e.tokens :=
  if_neg (Nat.not_lt.2 h)

@[simp]
theorem tokensAt_zero : e.tokensAt 0 = e.tokens :=
  tokensAt_of_le (Nat.zero_le _)

theorem length_tokensAt_le : (e.tokensAt place).length ≤ e.tokens.length + 2 :=
  e.tokensAt_cases (·.length ≤ e.tokens.length + 2) (Nat.le_of_eq (length_inParentheses _))
    fun _ => Nat.le_add_right _ 2

theorem length_le_tokensAt : e.tokens.length ≤ (e.tokensAt place).length :=
  e.tokensAt_cases (e.tokens.length ≤ ·.length) (by rw [length_inParentheses]; omega)
    fun _ => Nat.le_refl _

/-- Looser places ask for no more parentheses. -/
theorem length_tokensAt_mono (h : place ≤ place') :
    (e.tokensAt place).length ≤ (e.tokensAt place').length := by
  by_cases hlevel : place ≤ e.level
  · rw [tokensAt_of_le hlevel]
    exact length_le_tokensAt
  · have heq (p : Nat) (hp : e.level < p) : e.tokensAt p = inParentheses e.tokens := if_pos hp
    exact Nat.le_of_eq (by rw [heq place (by omega), heq place' (by omega)])

theorem bare_withSpan (e : Expr) (span : Span) : (e.withSpan span).bare = e.bare := by
  cases e <;> rfl

theorem tokens_withSpan (e : Expr) (span : Span) : (e.withSpan span).tokens = e.tokens := by
  cases e with
  | call m name rng args => cases rng <;> rfl
  | step m op before operand => cases before <;> rfl
  | binary m op left right => cases op <;> rfl
  | assign m target value => cases value <;> first | rfl | (rename_i left right; cases left <;> rfl)
  | _ => rfl

end Expr

/-! ## What reading a tree costs -/

/-- An operator of the grammar makes a tree of its power. -/
theorem tokens_apply {mark : Symbol} {p : Nat} {op : InfixOp} (hop : infixOp? mark = some (p, op))
    (l r : Expr) : (op.apply l r).level = p + 1 ∧
      (op.apply l r).tokens = l.tokensAt (p + 1) ++ .symbol mark :: r.tokensAt (p + 2) := by
  cases mark <;> cases hop <;> exact ⟨rfl, rfl⟩

theorem length_listTokens_le {parts : List (List Lexed × Expr)} {ts : List Lexed}
    (hjoined : Joined (parts.map Prod.fst) ts)
    (h : ∀ p ∈ parts, (p.2.tokensAt 0).length ≤ p.1.length) :
    (Expr.listTokens (parts.map Prod.snd)).length ≤ ts.length := by
  induction parts generalizing ts with
  | nil => exact Nat.zero_le _
  | cons first parts ih =>
    have hfirst := h first (by simp)
    rw [Expr.tokensAt_zero] at hfirst
    cases parts with
    | nil =>
      cases hjoined
      simpa using hfirst
    | cons second parts =>
      obtain _ | _ | @⟨t, _, _, rest, _, hrest⟩ := hjoined
      have := ih hrest fun p hp => h p (by simp [hp])
      simp only [List.map_cons, Expr.listTokens, Expr.moreTokens, List.length_append,
        List.length_cons] at this ⊢
      omega

/-- A tree is read from as many tokens as it takes to write it in its place. -/
theorem Phrase.length_tokensAt_le {place : Nat} {ts : List Lexed} {e : Expr}
    (h : Phrase place ts e) : (e.tokensAt place).length ≤ ts.length := by
  induction h with
  | looser hle _ ih => exact Nat.le_trans (Expr.length_tokensAt_mono hle) ih
  | constant | selfRef | identifier => exact Nat.le_refl 1
  | parens _ ih =>
    refine Nat.le_trans Expr.length_tokensAt_le ?_
    rw [Expr.tokens_withSpan]
    simpa using ih
  | call _ hjoined _ ih | callWith hjoined _ ih | memberCall _ hjoined _ _ ih =>
    have := length_listTokens_le hjoined ih
    rw [Expr.tokensAt_of_le (Nat.le_refl 13)]
    simp only [Expr.tokens, Expr.enclose_tokens, List.length_append, List.length_cons,
      length_inParentheses, List.length_nil] at *
    omega
  | @cast _ _ _ _ target _ htarget =>
    rw [Expr.tokensAt_of_le (Nat.le_refl 13), Expr.tokens, castTokens, if_pos htarget]
    simp only [List.length_append, List.length_cons, length_inParentheses, List.length_nil,
      Expr.tokensAt_zero] at *
    omega
  | classCast =>
    rw [Expr.tokensAt_of_le (Nat.le_refl 13), Expr.tokens, castTokens_class]
    simp only [List.length_append, List.length_cons, length_inParentheses, List.length_nil,
      Expr.tokensAt_zero] at *
    omega
  | member | element | stepAfter | raised | unary | stepBefore | storage | conditional =>
    rw [Expr.tokensAt_of_le (by exact Nat.le_refl _)]
    simp only [Expr.tokens, Expr.enclose_tokens, List.length_append, List.length_cons,
      length_inParentheses, List.length_nil, Expr.tokensAt_zero] at *
    omega
  | joined hop =>
    obtain ⟨hlevel, htokens⟩ := tokens_apply hop _ _
    rw [Expr.tokensAt_of_le (Nat.le_of_eq hlevel.symm), htokens]
    simp only [List.length_append, List.length_cons] at *
    omega
  | @assigned _ _ op _ _ _ _ _ _ hr =>
    rw [Expr.tokensAt_zero] at *
    cases op with
    | none =>
      rw [Reader.assignment, Expr.tokens_assign hr.isWhole]
      simp only [List.length_append, List.length_cons] at *
      omega
    | some op =>
      simp only [Reader.assignment, Expr.tokens, Expr.enclose_tokens, List.length_append,
        List.length_cons] at *
      omega

/-! ## Tokens do not depend on spans -/

theorem Expr.level_bare (e : Expr) : e.bare.level = e.level := by
  cases e with
  | step m op before operand => cases before <;> rfl
  | _ => rfl

theorem Expr.isWhole_bare (e : Expr) : e.bare.isWhole = e.isWhole := by
  cases e with
  | binary m op left right => cases left <;> rfl
  | _ => rfl

theorem listTokens_bareAll {es : List Expr} (h : ∀ e ∈ es, e.bare.tokens = e.tokens) :
    Expr.listTokens (Expr.bareAll es) = Expr.listTokens es := by
  have hmore (es : List Expr) (h : ∀ e ∈ es, e.bare.tokens = e.tokens) :
      Expr.moreTokens (Expr.bareAll es) = Expr.moreTokens es := by
    induction es with
    | nil => rfl
    | cons e es ih =>
      rw [Expr.bareAll, Expr.moreTokens, Expr.moreTokens, h e (by simp),
        ih fun e he => h e (by simp [he])]
  cases es with
  | nil => rfl
  | cons e es =>
    rw [Expr.bareAll, Expr.listTokens, Expr.listTokens, h e (by simp),
      hmore es fun e he => h e (by simp [he])]

theorem Phrase.tokens_bare {place : Nat} {ts : List Lexed} {e : Expr} (h : Phrase place ts e) :
    e.bare.tokens = e.tokens := by
  have each {parts : List (List Lexed × Expr)} (h : ∀ p ∈ parts, p.2.bare.tokens = p.2.tokens) :
      Expr.listTokens (Expr.bareAll (parts.map Prod.snd)) =
        Expr.listTokens (parts.map Prod.snd) :=
    listTokens_bareAll (by simpa using fun e ts hp => h (ts, e) hp)
  induction h with
  | looser _ _ ih => exact ih
  | @parens _ _ _ e _ ih => rw [Expr.bare_withSpan, ih, Expr.tokens_withSpan]
  | constant | identifier | selfRef => rfl
  | call _ _ _ ih | callWith _ _ ih => simp only [Expr.bare, Expr.tokens, each ih]
  | memberCall _ _ _ ih ihs =>
    simp only [Expr.bare, Expr.tokens, Expr.enclose, Expr.level_bare, ih, each ihs]
  | member _ ih | cast _ _ ih | classCast _ ih | unary _ ih | storage _ ih | stepBefore _ ih
  | stepAfter _ ih => simp only [Expr.bare, Expr.tokens, Expr.enclose, Expr.level_bare, ih]
  | raised _ _ ihl ihr | element _ _ ihl ihr =>
    simp only [Expr.bare, Expr.tokens, Expr.enclose, Expr.level_bare, ihl, ihr]
  | conditional _ _ _ ihc iht ihf =>
    simp only [Expr.bare, Expr.tokens, Expr.enclose, Expr.level_bare, ihc, iht, ihf]
  | @joined _ mark _ _ _ _ _ _ hop _ _ ihl ihr =>
    cases mark <;> cases hop
    all_goals simp only [InfixOp.apply, Expr.bare, Expr.tokens, Expr.enclose, Expr.level_bare, ihl, ihr]
  | @assigned _ _ op _ _ _ _ _ _ hr ihl ihr =>
    cases op with
    | none =>
      rw [Reader.assignment, Expr.bare, Expr.tokens_assign hr.isWhole,
        Expr.tokens_assign ((Expr.isWhole_bare _).trans hr.isWhole), ihr, Expr.tokensAt,
        Expr.enclose, Expr.level_bare, ihl]
      rfl
    | some op =>
      simp only [Reader.assignment, Expr.bare, Expr.tokens, Expr.enclose, Expr.level_bare, ihl, ihr]

/-! ## Expressions -/

theorem run_budget_bind {α : Type} (f : Nat → Reader α) (c : Cursor) :
    (budget >>= f).run.run c = (f (budgetFor c.rest.length)).run.run c :=
  rfl

theorem Takes.expression_reads {e : Expr} (h : Takes e) :
    Reads expression e.tokens [] (SameTree e) := by
  intro c hc
  have hlength : c.rest.length = e.tokens.length := by
    rw [← hc, List.length_map]
  have hread := h.assigning.reads (budgetFor c.rest.length) [] (by
    rw [budgetFor]
    omega) .nil
  rw [List.append_nil] at hread
  rw [expression, run_budget_bind]
  exact hread c hc

/-- Every tree of the grammar is read again, up to spans, from the tokens that it is written with,
all of them, and is never read from fewer tokens; and all that is read is a tree of the grammar. -/
theorem expression_rereads_its_tokens :
    (∀ place ts e, Phrase place ts e →
      (∀ written : List Lexed, written.map Lexed.token = e.tokens →
        ∃ e' c', expression.run.run (Cursor.ofTokens written) = (.ok e', c') ∧ c'.rest = [] ∧
          e'.bare = e.bare) ∧
      ∀ c c₁ e', expression.run.run c = (.ok e', c₁) → e'.bare = e.bare →
        c₁.rest.length + e.tokens.length ≤ c.rest.length) ∧
    ∀ c e c₁, expression.run.run c = (.ok e, c₁) →
      ∃ ts, c.rest = ts ++ c₁.rest ∧ Phrase 0 ts e := by
  refine ⟨fun place ts e hphrase => ⟨?_, ?_⟩, fun c e c₁ => phrase_of_expression⟩
  · intro written hwritten
    obtain ⟨e', c', hrun, hrest, hsame⟩ :=
      hphrase.takes.expression_reads (Cursor.ofTokens written) hwritten
    exact ⟨e', c', hrun, List.map_eq_nil_iff.1 hrest, hsame⟩
  · intro c c₁ e' hrun hsame
    obtain ⟨ts', hrest, hphrase'⟩ := phrase_of_expression hrun
    have hcost := hphrase'.length_tokensAt_le
    rw [Expr.tokensAt_zero, ← hphrase'.tokens_bare, hsame, hphrase.tokens_bare] at hcost
    rw [hrest, List.length_append]
    omega

/-- Eight tokens for a product whose left factor is a sum and whose right one has a sign. -/
theorem product_of_sum_rereads :
    let tokens : List Token := [.symbol .lParen, .ident "a", .symbol .plus, .ident "b",
      .symbol .rParen, .symbol .star, .symbol .minus, .ident "c"]
    let m : Mark := { span := Span.zero }
    let e : Expr := .binary m .mul (.binary m .add (.identifier m "a") (.identifier m "b"))
      (.unary m .minus (.identifier m "c"))
    e.tokens = tokens ∧
      ∃ e' c', expression.run.run (Cursor.ofTokens (tokens.map fun t => ⟨t, Span.zero⟩)) =
        (.ok e', c') ∧ c'.rest = [] ∧ e'.bare = e.bare := by
  intro tokens m e
  obtain ⟨ts, -, hphrase⟩ := expression_rereads_its_tokens.2 (Cursor.ofTokens
    ([.symbol .lParen, .symbol .lParen, .ident "a", .symbol .plus, .ident "b", .symbol .rParen,
      .symbol .rParen, .symbol .star, .symbol .minus, .ident "c"].map fun t => ⟨t, Span.zero⟩))
    e _ rfl
  exact ⟨rfl, (expression_rereads_its_tokens.1 0 ts e hphrase).1 _ rfl⟩

end ActorScript
