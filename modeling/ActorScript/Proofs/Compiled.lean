import ActorScript.Grammar.Statement
import ActorScript.Proofs.Lowering.Functions
import ActorScript.Proofs.Typing.Functions

/-! # Compiled functions

A compiled function has been typed and drafted, and its draft was finished.
-/

namespace ActorScript

variable {w : World} {o : Options}

theorem finishFor_ok {s : Scope} {returns : List Ty} {d : Draft} {compiled : Compiled}
    (h : finishFor o s returns d = .ok compiled) : d.assembler.finish = .ok compiled.chunk := by
  unfold finishFor at h
  split at h
  next hfinish =>
    cases h
    exact hfinish
  next => cases h

theorem compileFunction_ok {params : List (String × Ty)} {body : Stmt} {compiled : Compiled}
    (h : compileFunction w o params body = .ok compiled) :
    ∃ body' s, settleFunction w o params body = .ok (body', s) ∧
      (draftFunction w o params body' s).assembler.finish = .ok compiled.chunk := by
  unfold compileFunction at h
  rcases hsettle : settleFunction w o params body with r | ⟨body', s⟩
  · rw [hsettle] at h
    cases h
  · rw [hsettle] at h
    exact ⟨body', s, rfl, finishFor_ok h⟩

theorem compileDamage_ok {e : Expr} {compiled : Compiled}
    (h : compileDamage w o e = .ok compiled) :
    ∃ value s, settleFor w o true {} (settleDamage e) = .ok (value, s) ∧
      (draftDamage w o value s).assembler.finish = .ok compiled.chunk := by
  unfold compileDamage at h
  rcases hsettle : settleFor w o true {} (settleDamage e) with r | ⟨value, s⟩
  · rw [hsettle] at h
    cases h
  · rw [hsettle] at h
    exact ⟨value, s, rfl, finishFor_ok h⟩

theorem eq_ok_of_toOption {ε α : Type} {x : Except ε α} {a : α} (h : x.toOption = some a) :
    x = .ok a := by
  cases x with
  | error => cases h
  | ok => exact congrArg _ (Option.some.inj h)

theorem exists_compiled (w : World) (o : Options) (params : List (String × Ty)) (text : String)
    (h : ((parseBody text).toOption.bind fun body =>
      (compileFunction w o params body).toOption).isSome = true) :
    ∃ body compiled, parseBody text = .ok body ∧ compileFunction w o params body = .ok compiled := by
  obtain ⟨compiled, hcompiled⟩ := Option.isSome_iff_exists.1 h
  obtain ⟨body, hbody, hcompile⟩ := Option.bind_eq_some_iff.1 hcompiled
  exact ⟨body, compiled, eq_ok_of_toOption hbody, eq_ok_of_toOption hcompile⟩

def instructionsOf (w : World) (o : Options) (text : String) : Option (List Instr) := do
  let body ← (parseBody text).toOption
  let (body, s) ← (settleFunction w o [] body).toOption
  return (draftFunction w o [] body s).code

end ActorScript
