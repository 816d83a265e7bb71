import ActorScript.Proofs.Written

/-! # Spans of what is read from a text

Every node that is read from a text points to a stretch of it that begins and ends with tokens,
and the stretches of its parts lie in its own.
-/

namespace ActorScript

/-- A span inside of a text. Unless the text has no tokens, it begins and ends with some. -/
structure Span.Fits (text : String) (tokens : List Lexed) (span : Span) : Prop where
  le : span.start ≤ span.stop
  inside : span.stop ≤ text.utf8ByteSize
  starts : tokens ≠ [] → ∃ t ∈ tokens, t.span.start = span.start
  stops : tokens ≠ [] → ∃ t ∈ tokens, t.span.stop = span.stop

section Tokens

variable {text : String} {tokens : List Lexed}

theorem inOrder_of_scan (h : scan text = .ok tokens) : InOrder tokens :=
  (tiled_of_scanFrom h).ordered.1

theorem Span.Bounded.fits {span : Span} (h : span.Bounded tokens) (hscan : scan text = .ok tokens) :
    span.Fits text tokens := by
  obtain ⟨t, ht, hstop⟩ := h.stops
  have hvalid := (tiled_of_scanFrom hscan).isValid [] rfl t ht
  exact ⟨h.le, hstop ▸ hvalid.2.le_rawEndPos, fun _ => h.starts, fun _ => h.stops⟩

/-- From the first token on to the end of the last one. -/
theorem spanned_tokens {start : Span} (hne : tokens ≠ [])
    (hstart : ∀ t ∈ tokens.head?, start = t.span) :
    Spanned tokens (start.merge (Cursor.ofTokens tokens).stop) := by
  intro hordered
  obtain ⟨t, rest, rfl⟩ := List.exists_cons_of_ne_nil hne
  have hlast : (t :: rest).getLast hne ∈ (t :: rest).getLast? := List.getLast?_eq_some_getLast hne
  have hopens : Opens start (t :: rest) := ⟨t, rfl, hstart t rfl⟩
  have hull := hopens.spanned hlast hordered
  have hstop : (Cursor.ofTokens (t :: rest)).stop =
      ⟨((t :: rest).getLast hne).span.stop, ((t :: rest).getLast hne).span.stop⟩ := by
    simp only [Cursor.ofTokens, Option.mem_def.1 hlast]
  have hspan : start.merge (Cursor.ofTokens (t :: rest)).stop =
      start.merge ((t :: rest).getLast hne).span := by
    have hfilled := hordered.filled t (by simp)
    have hfilled' := hordered.filled _ (List.getLast_mem hne)
    have hfirst : t.span.start ≤ ((t :: rest).getLast hne).span.start := by
      rcases List.mem_cons.1 (List.getLast_mem hne) with hsame | hmem
      · rw [hsame]
      · have := (List.pairwise_cons.1 hordered.apart).1 _ hmem
        omega
    rw [hstop, hstart t rfl]
    simp only [Span.merge, Span.mk.injEq, and_true]
    omega
  rwa [hspan]

end Tokens

/-- The span of every node of an expression or a body lies in the text, begins with a token and
ends with one, and covers the spans of the parts of the node. -/
theorem parsed_spans_nest {text : String} {tokens : List Lexed} (hscan : scan text = .ok tokens) :
    (∀ e, parseExpression text = .ok e → e.SpansNest (·.Fits text tokens)) ∧
    ∀ s, parseBody text = .ok s → s.SpansNest (·.Fits text tokens) := by
  have hordered := inOrder_of_scan hscan
  constructor
  · intro e h
    obtain ⟨tokens', hscan', hphrase⟩ := parseExpression_phrase h
    cases hscan.symm.trans hscan'
    exact (hphrase.lies.nests hordered).mono fun _ hspan => hspan.fits hscan
  · intro s h
    obtain ⟨tokens', c, hscan', hrun⟩ := readTokens_ok h
    cases hscan.symm.trans hscan'
    obtain ⟨start, body, c', ts, hwhole, hstart, hzero, hmoves, hbody⟩ :=
      Reader.wholeBody_moves tokens
    rw [hrun] at hwhole
    cases hwhole
    have hsub : ts.Sublist tokens := (show tokens = _ from hmoves.rest) ▸ List.sublist_append_left ..
    by_cases hne : tokens = []
    · subst hne
      obtain rfl : body = [] := List.eq_nil_iff_forall_not_mem.2 fun s hs =>
        (hbody s hs).ne_nil (List.sublist_nil.1 hsub)
      rw [hzero rfl]
      exact Stmt.every_iff.2 ⟨⟨⟨Nat.le_refl _, Nat.zero_le _, nofun, nofun⟩, nofun, nofun⟩, nofun⟩
    · have hlies : (Stmt.block (start.merge (Cursor.ofTokens tokens).stop) body []).Lies tokens :=
        .node (spanned_tokens hne hstart) (fun s hs => (hbody s hs).child hsub) nofun
      exact (hlies.nests hordered).mono fun _ hspan => hspan.fits hscan

/-- The product ends behind the parenthesis, and the sum lies in it. -/
theorem product_spans_nest : ∃ tokens e, scan "2 * (a + b) // c" = .ok tokens ∧
    parseExpression "2 * (a + b) // c" = .ok e ∧ e.span = ⟨0, 11⟩ ∧
    e.children.map Expr.span = [⟨0, 1⟩, ⟨4, 11⟩] ∧
    e.SpansNest (·.Fits "2 * (a + b) // c" tokens) := by
  have hread : (parseExpression "2 * (a + b) // c").toOption.map
      (fun e => (e.span, e.children.map Expr.span)) = some (⟨0, 11⟩, [⟨0, 1⟩, ⟨4, 11⟩]) := by
    decide +kernel
  obtain ⟨e, he, hspans⟩ := Option.map_eq_some_iff.1 hread
  cases hparse : parseExpression "2 * (a + b) // c" with
  | error =>
    rw [hparse] at he
    cases he
  | ok e' =>
    rw [hparse] at he
    cases he
    obtain ⟨tokens, hscan, -⟩ := parseExpression_phrase hparse
    obtain ⟨hspan, hchildren⟩ := Prod.mk.inj hspans
    exact ⟨tokens, e, hscan, rfl, hspan, hchildren, (parsed_spans_nest hscan).1 e hparse⟩

end ActorScript
