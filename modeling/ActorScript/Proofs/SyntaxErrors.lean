import ActorScript.Proofs.Written

/-! # Errors of a body

Reading a body goes on after an error, and gives up after some. But the limit is only looked at
between statements: each block that is still open then adds one more error for the brace that it
misses.
-/

namespace ActorScript

open Reader

/-- A body is read from all tokens, with its errors in the order of the tokens. There are at most
as many as the limit says and one more for each opening brace. -/
theorem body_errors_bounded (tokens : List Lexed) :
    ∃ body c, wholeBody.run.run (Cursor.ofTokens tokens) = (.ok body, c) ∧
      c.errors.length ≤ maxSyntaxErrors + braces tokens ∧
      c.errors.Pairwise (·.position ≤ ·.position) ∧
      ∀ e ∈ c.errors, e.position ≤ tokens.length := by
  obtain ⟨start, body, c, ts, hrun, -, -, hmoves, -⟩ := wholeBody_moves tokens
  obtain ⟨new, herrors, hsorted, hwithin, hfew⟩ := hmoves.errors
  have hrest : tokens = ts ++ c.rest := hmoves.rest
  have hposition : c.position = 0 + ts.length := hmoves.position
  have hbraces : braces tokens = braces ts + braces c.rest := by
    rw [hrest]
    exact List.countP_append ..
  have hlength := congrArg List.length hrest
  rw [List.length_append] at hlength
  obtain rfl : c.errors = new := herrors
  refine ⟨_, c, hrun, ?_, hsorted, fun e he => ?_⟩
  · rcases hfew with hnone | hfew
    · simp [hnone]
    · omega
  · have := hwithin e he
    omega

/-- Twenty-one blocks that nothing closes. -/
theorem body_errors_of_open_blocks :
    let tokens : List Lexed := List.replicate 21 ⟨.symbol .lBrace, Span.zero⟩
    (wholeBody.run.run (Cursor.ofTokens tokens)).2.errors.length = 21 ∧ maxSyntaxErrors = 20 := by
  decide +kernel

end ActorScript
