import ActorScript.Proofs.Compiled

/-! # Operands are of the kinds that their instructions read

All instructions of compiled code get registers where they read registers and entries of the
constant pools where they read constants, and each of the right bank, but for what
`Stmt.clashes` and `Expr.clashes` tell of the settled tree: an operator on two pooled values, a
shift by a pooled amount that is no constant, and moves of what has no value.
-/

namespace ActorScript

variable {w : World} {o : Options}

theorem Stmt.Accepted.draft_fits {params : List (String × Ty)} {body : Stmt} {s : Scope}
    {chunk : Chunk} (hbody : body.Accepted w o params s)
    (h : (draftFunction w o params body s).assembler.finish = .ok chunk) :
    (draftFunction w o params body s).Fits body.clashes :=
  draftFunction_fits hbody.settled rfl rfl (fun _ hp => hbody.paramType hp) h

/-- Operands fit their instructions, in all the code of a function and of a damage expression,
exactly if nothing in the settled tree clashes. Pool indices are always within their pools. -/
theorem compiled_operands_fit (w : World) (o : Options) :
    (∀ params text body compiled, parseBody text = .ok body →
      compileFunction w o params body = .ok compiled →
      ∃ body' s, settleFunction w o params body = .ok (body', s) ∧
        (draftFunction w o params body' s).assembler.finish = .ok compiled.chunk ∧
        (draftFunction w o params body' s).Fits body'.clashes) ∧
    ∀ text e compiled, parseExpression text = .ok e → compileDamage w o e = .ok compiled →
      ∃ value s, settleFor w o true {} (settleDamage e) = .ok (value, s) ∧
        (draftDamage w o value s).assembler.finish = .ok compiled.chunk ∧
        (draftDamage w o value s).Fits value.clashes := by
  constructor
  · intro params text body compiled hparse hcompile
    obtain ⟨body', s, hsettle, hfinish⟩ := compileFunction_ok hcompile
    have hbody := settleFunction_accepted (parseBody_written hparse) hsettle
    exact ⟨body', s, hsettle, hfinish, hbody.draft_fits hfinish⟩
  · intro text e compiled hparse hcompile
    obtain ⟨value, s, hsettle, hfinish⟩ := compileDamage_ok hcompile
    obtain ⟨hvalue, hbank⟩ := settleDamage_settled (parseExpression_written hparse) hsettle
    exact ⟨value, s, hsettle, hfinish, draftDamage_fits hvalue hbank rfl rfl hfinish⟩

theorem compiled_operands_fit_sum : ∃ body compiled, parseBody "int x; x + (x = 2);" = .ok body ∧
    compileFunction {} {} [] body = .ok compiled ∧
    ∃ body' s, settleFunction {} {} [] body = .ok (body', s) ∧
      (draftFunction {} {} [] body' s).assembler.finish = .ok compiled.chunk ∧
      (draftFunction {} {} [] body' s).Fits body'.clashes := by
  obtain ⟨body, compiled, hparse, hcompile⟩ :=
    exists_compiled {} {} [] "int x; x + (x = 2);" (by decide +kernel)
  exact ⟨body, compiled, hparse, hcompile,
    (compiled_operands_fit {} {}).1 [] _ body compiled hparse hcompile⟩

/-- The sum of two values that are left in the pool: the second one's index is taken for a
register. -/
theorem pooled_sum_misread :
    ((instructionsOf {} {} "int x; (x = 1) + 2;").map fun code => code.map Instr.fits) =
      some [true, true, false, true] := by
  decide +kernel

end ActorScript
