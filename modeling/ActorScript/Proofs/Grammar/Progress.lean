import ActorScript.Proofs.Written

/-! # Progress of reading

Readers never go back and never beyond the last token, and those of expressions and statements pass
over at least one token when they succeed. So the depth of their calls is bounded by the tokens
ahead, and a budget in proportion to these is never used up. After a fault reading goes on behind it,
and a text without a fault is read to its end.
-/

namespace ActorScript

open Reader

theorem Reader.skipStatement_moves (c : Cursor) :
    ∃ c' ts, skipStatement.run.run c = (.ok (), c') ∧ c.Moves False 0 ts c' :=
  advanceBy_moves (skipLength 0 c.rest) c

/-- A text is read to its end, unless there are too many faults. -/
theorem Reader.wholeBody_ends {tokens : List Lexed} {s : Stmt} {c : Cursor}
    (h : wholeBody.run.run (Cursor.ofTokens tokens) = (.ok s, c)) :
    c.rest = [] ∨ maxSyntaxErrors ≤ c.errors.length := by
  obtain ⟨body, c', ts, hrun, -, -, hend⟩ :=
    bodyStatements_moves (n := budgetFor tokens.length) (c := Cursor.ofTokens tokens)
      (show tokens.length < _ by rw [budgetFor]; omega)
  obtain ⟨start, hstart⟩ : ∃ start, peekSpan.run.run (Cursor.ofTokens tokens) =
    (.ok start, Cursor.ofTokens tokens) := ⟨_, rfl⟩
  rw [wholeBody, run_bind_ok hstart, run_bind_ok (looks_budget tokens _ rfl), run_bind_ok hrun] at h
  cases h
  exact hend

/-- No reader moves back or beyond the last token, whatever the tokens are. Every reader of an
expression or a statement that succeeds has passed over a token, and nesting is too deep only for a
budget that is smaller than what the tokens ahead can ask for. Statements are read in rounds that
pass over a token or are the last. So a whole text is always read, its nesting is never too deep,
and without a fault all of its tokens have been passed over. -/
theorem reading_progresses :
    ((∀ budget, GivesTrees budget ∧ GivesStatements budget) ∧
      (∀ place ts e, Phrase place ts e → ts ≠ []) ∧ ∀ P ts s, Clause P ts s → ts ≠ []) ∧
    (Brings expression (fun ts _ _ => ts ≠ []) ∧ Brings parenthesized (fun ts _ _ => ts ≠ []) ∧
      Brings declaration (fun ts _ _ => ts ≠ []) ∧ Brings expressionList (fun ts _ _ => ts ≠ []) ∧
      ∀ c, ∃ c' ts, skipStatement.run.run c = (.ok (), c') ∧ c.Moves False 0 ts c') ∧
    (∀ n, statements (n + 1) = statementsRound n >>= andThen (statements n) ∧
      bodyStatements (n + 1) = bodyRound >>= andThen (bodyStatements n)) ∧
    (∀ n c, ∃ read c' ts, (statementsRound n).run.run c = (.ok read, c') ∧
      c.Moves (n < 16 * c.rest.length + 2) 1 ts c' ∧ (read.2 = true → ts ≠ [])) ∧
    (∀ c, ∃ read c' ts, bodyRound.run.run c = (.ok read, c') ∧ c.Moves False 1 ts c' ∧
      (read.2 = true → ts ≠ [])) ∧
    ∀ tokens, ∃ body c ts, wholeBody.run.run (Cursor.ofTokens tokens) = (.ok body, c) ∧
      (Cursor.ofTokens tokens).Moves False 1 ts c ∧
      (c.errors = [] → c.rest = [] ∧ c.position = tokens.length) := by
  refine ⟨⟨fun budget => ⟨givesTrees budget, givesStatements budget⟩, fun _ _ _ h => h.ne_nil,
    fun _ _ _ h => h.ne_nil⟩, ⟨?_, ?_, ?_, ?_, skipStatement_moves⟩,
    fun n => ⟨statements_eq_rounds n, bodyStatements_eq_rounds n⟩, fun n c => ?_, fun c => ?_,
    fun tokens => ?_⟩
  · exact fun ahead => (expression_brings ahead).mono fun _ _ _ h => h.ne_nil
  · exact fun ahead => (parenthesized_brings ahead).mono fun _ _ _ h => h.1
  · exact fun ahead => (declaration_brings ahead).mono fun _ _ _ h => h.ne_nil
  · exact fun ahead => (expressionList_brings ahead).mono fun _ _ _ h => h.ne_nil
  · obtain ⟨read, c', ts, hrun, hmoves, hne, -⟩ := statementsRound_moves (givesStatements n) c
    exact ⟨read, c', ts, hrun, hmoves, hne⟩
  · obtain ⟨read, c', ts, hrun, hmoves, hne, -⟩ := bodyRound_moves c
    exact ⟨read, c', ts, hrun, hmoves, hne⟩
  · obtain ⟨start, body, c, ts, hrun, -, -, hmoves, -⟩ := wholeBody_moves tokens
    refine ⟨_, c, ts, hrun, hmoves, fun hnone => ?_⟩
    have hrest : c.rest = [] := by simpa [hnone, maxSyntaxErrors] using wholeBody_ends hrun
    have htokens : tokens = ts ++ c.rest := hmoves.rest
    have hposition : c.position = 0 + ts.length := hmoves.position
    rw [hrest, List.append_nil] at htokens
    exact ⟨hrest, by rw [hposition, htokens, Nat.zero_add]⟩

end ActorScript
