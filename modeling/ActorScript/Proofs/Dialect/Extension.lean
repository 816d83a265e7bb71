import ActorScript.Proofs.Compiled
import ActorScript.Proofs.Dialect.Statements

/-! # The lax dialect extends the usual one

Whatever compiles in the usual dialect compiles in the lax one, strict or not, to the same code,
with the same diagnostics but for warnings about truncation.
-/

namespace ActorScript

open Typing

variable {inFunction : Bool} {s : Scope} {params : List (String × Ty)} {ds : List Diagnostic}
  {compiled : Compiled}

/-- The same options for the lax dialect, strict or not. -/
def Options.relax (strict : Bool) (o : Options) : Options :=
  { o with lax := true, strict }

variable {w : World} {o : Options} {strict : Bool}

theorem Setting.firm_ofOptions (ho : o.lax = false) :
    (Setting.ofOptions w o inFunction).firm = .ofOptions w o inFunction := by
  rw [Setting.firm, ← ho]
  rfl

theorem Setting.lenient_ofOptions :
    (Setting.ofOptions w o inFunction).lenient strict = .ofOptions w (o.relax strict) inFunction :=
  rfl

/-! ## Fatal diagnostics -/

theorem Scope.clean_of_hasFatal (h : s.hasFatal strict = false) : s.Clean := by
  intro d hd hseverity
  have hfatal := List.any_eq_false.1 h d hd
  rw [Diagnostic.isFatal, hseverity] at hfatal
  exact hfatal rfl

/-- Only errors and faults that were tolerated can be fatal. -/
theorem Scope.hasFatal_eq_false (hclean : s.Clean)
    (hopt : ∀ d ∈ s.diagnostics, d.severity ≠ .optError) : s.hasFatal strict = false := by
  refine List.any_eq_false.2 fun d hd => ?_
  have herror := hclean d hd
  have hopt := hopt d hd
  unfold Diagnostic.isFatal
  split <;> simp_all

/-! ## Typing -/

theorem settleFor_relax {α γ : Type} {view : α → γ} {scope : Scope} {x y : Typing α} {a : α}
    (strict : Bool) (ho : o.lax = false) (hscope : scope.diagnostics = [])
    (hxy : Follows (.ofOptions w o inFunction) strict view x y)
    (h : settleFor w o inFunction scope x = .ok (a, s)) :
    ∃ a' ds, settleFor w (o.relax strict) inFunction scope y = .ok (a', s.withDiagnostics ds) ∧
      view a = view a' ∧ Quieted s.diagnostics ds := by
  obtain ⟨hrun, hfatal⟩ := settleFor_ok h
  have hclean : s.Clean := Scope.clean_of_hasFatal hfatal
  have hstart : scope.withDiagnostics [] = scope := by
    rw [← hscope]
    rfl
  rw [← Setting.firm_ofOptions ho] at hrun
  obtain ⟨a', ds, hrun', hview, hds⟩ := hxy.follows scope [] a s (hscope ▸ .nil) hrun hclean
  obtain ⟨added, hadded, hopt⟩ := hxy.records scope
  rw [hrun, hscope, List.nil_append] at hadded
  have hcleared : (s.withDiagnostics ds).hasFatal strict = false :=
    Scope.hasFatal_eq_false (fun d hd => hclean d (hds.sublist.subset hd))
      fun d hd => hopt d (hadded ▸ hds.sublist.subset hd)
  refine ⟨a', ds, ?_, hview, hds⟩
  rw [hstart, Setting.lenient_ofOptions] at hrun'
  rw [settleFor, hrun']
  exact if_neg (by simpa [Options.relax] using hcleared)

/-! ## Code -/

theorem draftFunction_relax {body body' : Stmt} (h : body.Alike body') :
    draftFunction w (o.relax strict) params body' (s.withDiagnostics ds) =
      draftFunction w o params body s := by
  unfold draftFunction
  rw [h.lower, h.endsInReturn]
  rfl

theorem draftDamage_relax {value value' : Expr} (h : value.Alike value') :
    draftDamage w (o.relax strict) value' (s.withDiagnostics ds) = draftDamage w o value s := by
  unfold draftDamage Lowering.returnDamage
  rw [h.constant?, h.lower]
  rfl

theorem finishFor_relax {returns : List Ty} {d : Draft} (strict : Bool) (ds : List Diagnostic)
    (h : finishFor o s returns d = .ok compiled) :
    finishFor (o.relax strict) (s.withDiagnostics ds) returns d =
        .ok { compiled with diagnostics := ds } ∧ compiled.diagnostics = s.diagnostics := by
  unfold finishFor at h ⊢
  split at h <;> cases h
  exact ⟨rfl, rfl⟩

theorem settleDamage_echoes {σ : Setting} (e : Expr) :
    Same σ strict Expr.hush (settleDamage e) := by
  unfold settleDamage
  refine .bind e.settle_echoes fun v v' (hv : v.Alike v') => ?_
  rw [hv.ty, hv.span]
  exact .guarded fun _ => toInt_echoes hv id

theorem compileFunction_relax {body : Stmt} (ho : o.lax = false)
    (h : compileFunction w o params body = .ok compiled) :
    ∃ ds, compileFunction w (o.relax strict) params body = .ok { compiled with diagnostics := ds } ∧
      Quieted compiled.diagnostics ds := by
  unfold compileFunction at h
  rcases hsettle : settleFunction w o params body with r | ⟨body', s⟩ <;> rw [hsettle] at h
  · cases h
  have hscope : (Scope.ofParams params).2.diagnostics = [] := by
    rw [Scope.ofParams_eq]
    rfl
  obtain ⟨body1, ds, hrun, hbody, hds⟩ :=
    settleFor_relax strict ho hscope body.settle_echoes hsettle
  obtain ⟨hfinish, hdiagnostics⟩ := finishFor_relax strict ds h
  refine ⟨ds, ?_, hdiagnostics ▸ hds⟩
  rw [compileFunction, settleFunction, hrun]
  dsimp only [bind, Except.bind]
  rw [draftFunction_relax hbody]
  exact hfinish

theorem compileDamage_relax {e : Expr} (ho : o.lax = false)
    (h : compileDamage w o e = .ok compiled) :
    ∃ ds, compileDamage w (o.relax strict) e = .ok { compiled with diagnostics := ds } ∧
      Quieted compiled.diagnostics ds := by
  unfold compileDamage at h
  rcases hsettle : settleFor w o true {} (settleDamage e) with r | ⟨value, s⟩ <;> rw [hsettle] at h
  · cases h
  obtain ⟨value', ds, hrun, hvalue, hds⟩ :=
    settleFor_relax strict ho rfl (settleDamage_echoes e) hsettle
  obtain ⟨hfinish, hdiagnostics⟩ := finishFor_relax strict ds h
  refine ⟨ds, ?_, hdiagnostics ▸ hds⟩
  rw [compileDamage, hrun]
  dsimp only [bind, Except.bind]
  rw [draftDamage_relax hvalue]
  exact hfinish

theorem evaluateConstant_relax {e : Expr} {c : Constant} (ho : o.lax = false)
    (h : evaluateConstant w o e = .ok (c, ds)) :
    ∃ es, evaluateConstant w (o.relax strict) e = .ok (c, es) ∧ Quieted ds es := by
  unfold evaluateConstant at h
  rcases hsettle : settleFor w o false {} e.settle with r | ⟨value, s⟩ <;> rw [hsettle] at h
  · cases h
  obtain ⟨value', es, hrun, hvalue, hes⟩ :=
    settleFor_relax strict ho rfl e.settle_echoes hsettle
  dsimp only [bind, Except.bind] at h
  split at h <;> cases h
  next hconstant =>
    refine ⟨es, ?_, hes⟩
    rw [evaluateConstant, hrun]
    dsimp only [bind, Except.bind]
    rw [Expr.Alike.constant? hvalue, hconstant]
    rfl

/-- The lax dialect, strict or not, is a conservative extension of the usual one: what compiles in
the usual dialect compiles in the lax one to the same chunk and return types, or to the same
constant, and of the diagnostics only some warnings about truncation are gone. -/
theorem lax_conservative (w : World) (o : Options) (ho : o.lax = false) (strict : Bool) :
    (∀ params body compiled, compileFunction w o params body = .ok compiled →
      ∃ ds, compileFunction w (o.relax strict) params body =
          .ok { compiled with diagnostics := ds } ∧ Quieted compiled.diagnostics ds) ∧
    (∀ e compiled, compileDamage w o e = .ok compiled →
      ∃ ds, compileDamage w (o.relax strict) e = .ok { compiled with diagnostics := ds } ∧
        Quieted compiled.diagnostics ds) ∧
    (∀ e c ds, evaluateConstant w o e = .ok (c, ds) →
      ∃ es, evaluateConstant w (o.relax strict) e = .ok (c, es) ∧ Quieted ds es) :=
  ⟨fun _ _ _ => compileFunction_relax ho, fun _ _ => compileDamage_relax ho,
    fun _ _ _ => evaluateConstant_relax ho⟩

/-- A float assigned to an integer loses its fraction, with a warning in the usual dialect. -/
theorem lax_conservative_truncation :
    ∃ body compiled ds, parseBody "double d; int x; x = d;" = .ok body ∧
      compileFunction {} {} [] body = .ok compiled ∧
      compileFunction {} (({} : Options).relax true) [] body =
        .ok { compiled with diagnostics := ds } ∧ Quieted compiled.diagnostics ds := by
  obtain ⟨body, compiled, hbody, hcompiled⟩ :=
    exists_compiled {} {} [] "double d; int x; x = d;" (by decide +kernel)
  obtain ⟨ds, hds, hquieted⟩ := (lax_conservative {} {} rfl true).1 [] body compiled hcompiled
  exact ⟨body, compiled, ds, hbody, hcompiled, hds, hquieted⟩

end ActorScript
