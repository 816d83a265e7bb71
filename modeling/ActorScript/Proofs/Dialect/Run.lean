import ActorScript.Proofs.Dialect.Alike
import ActorScript.Proofs.Typing.Run

/-! # The same step in both dialects

A step is run in the usual dialect and beside it in the lax one. Where the first run succeeds
without recording an error, the second follows it: it succeeds with the same value, seen through a
view, and leaves the same scope but for warnings about truncation that it does not give.
-/

namespace ActorScript

variable {d : Diagnostic} {r : Rejection} {span : Span} {fault : Fault}

/-! ## Diagnostics -/

/-- A warning that a number loses its fraction. -/
def Diagnostic.IsTruncation (d : Diagnostic) : Prop :=
  d.severity = .warning ∧ d.code = some Code.floatTruncated.id

/-- `Quieted ds es` says that `es` are the diagnostics `ds` without some of the warnings about
truncation. -/
inductive Quieted : List Diagnostic → List Diagnostic → Prop
  | nil : Quieted [] []
  | keep {ds es : List Diagnostic} (d : Diagnostic) (h : Quieted ds es) : Quieted (d :: ds) (d :: es)
  | drop {ds es : List Diagnostic} (d : Diagnostic) (hd : d.IsTruncation) (h : Quieted ds es) :
      Quieted (d :: ds) es

namespace Quieted

variable {ds es : List Diagnostic}

theorem append {ds' es' : List Diagnostic} (h : Quieted ds es) (h' : Quieted ds' es') :
    Quieted (ds ++ ds') (es ++ es') := by
  induction h with
  | nil => exact h'
  | keep d _ ih => exact .keep d ih
  | drop d hd _ ih => exact .drop d hd ih

theorem silence (h : Quieted ds es) (hd : d.IsTruncation) : Quieted (ds ++ [d]) es := by
  simpa using h.append (.drop d hd .nil)

theorem sublist (h : Quieted ds es) : es.Sublist ds := by
  induction h with
  | nil => exact List.Sublist.refl _
  | keep d _ ih => exact ih.cons_cons d
  | drop d _ _ ih => exact ih.cons d

end Quieted

def Scope.withDiagnostics (ds : List Diagnostic) (s : Scope) : Scope :=
  { s with diagnostics := ds }

theorem Scope.find?_withDiagnostics (ds : List Diagnostic) (s : Scope) (name : String) :
    (s.withDiagnostics ds).find? name = s.find? name := rfl

theorem Scope.targets_withDiagnostics (ds : List Diagnostic) (s : Scope) :
    (s.withDiagnostics ds).targets = s.targets := rfl

/-- A scope in which no error has been recorded. -/
def Scope.Clean (s : Scope) : Prop :=
  ∀ d ∈ s.diagnostics, d.severity ≠ .error

namespace Setting

def firm (σ : Setting) : Setting :=
  { σ with lax := false }

def lenient (strict : Bool) (σ : Setting) : Setting :=
  { σ with lax := true, strict }

end Setting

namespace Typing

variable {α β γ δ : Type} {σ : Setting} {strict : Bool}

/-- In the usual dialect a step loses nothing that was recorded, and it tolerates no fault. -/
def Records (σ : Setting) (x : Typing α) : Prop :=
  ∀ s : Scope, ∃ ds, (x.runFrom σ.firm s).2.diagnostics = s.diagnostics ++ ds ∧
    ∀ d ∈ ds, d.severity ≠ .optError

theorem Records.bind {x : Typing α} {f : α → Typing β} (hx : Records σ x)
    (hf : ∀ a, Records σ (f a)) : Records σ (x >>= f) := by
  intro s
  obtain ⟨ds, hds, hopt⟩ := hx s
  rw [runFrom_bind]
  rcases hrun : x.runFrom σ.firm s with ⟨r | a, t⟩ <;> rw [hrun] at hds
  · exact ⟨ds, hds, hopt⟩
  · obtain ⟨es, hes, hopt'⟩ := hf a t
    refine ⟨ds ++ es, ?_, fun d hd => ?_⟩
    · rw [← List.append_assoc, ← hds]
      exact hes
    · exact (List.mem_append.1 hd).elim (hopt d) (hopt' d)

theorem Records.tryCatch {x : Typing α} {f : Rejection → Typing α} (hx : Records σ x)
    (hf : ∀ r, Records σ (f r)) : Records σ (tryCatch x f) := by
  intro s
  obtain ⟨ds, hds, hopt⟩ := hx s
  rw [runFrom_tryCatch]
  rcases hrun : x.runFrom σ.firm s with ⟨r | a, t⟩ <;> rw [hrun] at hds
  · obtain ⟨es, hes, hopt'⟩ := hf r t
    refine ⟨ds ++ es, ?_, fun d hd => ?_⟩
    · rw [← List.append_assoc, ← hds]
      exact hes
    · exact (List.mem_append.1 hd).elim (hopt d) (hopt' d)
  · exact ⟨ds, hds, hopt⟩

theorem Records.record (hd : d.severity ≠ .optError) :
    Records σ (modify (Scope.record d) : Typing PUnit) :=
  fun _ => ⟨[d], rfl, by simpa using hd⟩

theorem Records.pure {a : α} : Records σ (pure a : Typing α) :=
  fun _ => ⟨[], by simp⟩

theorem Records.modify {f : Scope → Scope} (h : ∀ s, (f s).diagnostics = s.diagnostics) :
    Records σ (modify f : Typing PUnit) :=
  fun s => ⟨[], by rw [List.append_nil]; exact h s, by simp⟩

theorem Records.throw : Records σ (throw r : Typing α) :=
  fun _ => ⟨[], by simp⟩

/-- What comes before a step that ends clean was clean. -/
theorem Records.clean {x : Typing α} (h : Records σ x) {s t : Scope} {r : Except Rejection α}
    (hrun : x.runFrom σ.firm s = (r, t)) (ht : t.Clean) : s.Clean := by
  obtain ⟨ds, hds, -⟩ := h s
  intro d hd
  rw [hrun] at hds
  exact ht d (by rw [hds]; exact List.mem_append_left _ hd)

/-- `y` in the lax dialect does what `x` does in the usual one. -/
structure Follows (σ : Setting) (strict : Bool) (view : α → γ) (x y : Typing α) : Prop where
  records : Records σ x
  follows : ∀ (s : Scope) (ds : List Diagnostic) (a : α) (t : Scope), Quieted s.diagnostics ds →
    x.runFrom σ.firm s = (.ok a, t) → t.Clean →
    ∃ a' es, y.runFrom (σ.lenient strict) (s.withDiagnostics ds) = (.ok a', t.withDiagnostics es) ∧
      view a = view a' ∧ Quieted t.diagnostics es

/-- A step that goes the same way in both dialects. -/
abbrev Same (σ : Setting) (strict : Bool) (view : α → γ) (x : Typing α) : Prop :=
  Follows σ strict view x x

namespace Follows

variable {view : α → γ} {view' : β → δ} {x y : Typing α} {f g : α → Typing β}

theorem pure {a a' : α} (h : view a = view a') :
    Follows σ strict view (Pure.pure a) (Pure.pure a') where
  records := .pure
  follows s ds _ _ hds hrun _ := by
    cases hrun
    exact ⟨a', ds, rfl, h, hds⟩

theorem throw : Follows σ strict view (throw r) y where
  records := .throw
  follows _ _ _ _ _ hrun _ := by cases hrun

theorem reject : Follows σ strict view (reject span fault) y :=
  throw

theorem bind (hx : Follows σ strict view x y)
    (hf : ∀ a a', view a = view a' → Follows σ strict view' (f a) (g a')) :
    Follows σ strict view' (x >>= f) (y >>= g) where
  records := hx.records.bind fun a => (hf a a rfl).records
  follows s ds b u hds hrun hclean := by
    rw [runFrom_bind] at hrun
    rcases hxs : x.runFrom σ.firm s with ⟨r | a, t⟩ <;> rw [hxs] at hrun
    · cases hrun
    · have ht := (hf a a rfl).records.clean hrun hclean
      obtain ⟨a', es, hys, hview, hes⟩ := hx.follows s ds a t hds hxs ht
      obtain ⟨b', es', hgs, hview', hes'⟩ := (hf a a' hview).follows t es b u hes hrun hclean
      refine ⟨b', es', ?_, hview', hes'⟩
      rw [runFrom_bind, hys]
      exact hgs

/-- The setting is read, and the dialect may matter. -/
theorem read {f g : Setting → Typing β}
    (h : Follows σ strict view' (f σ.firm) (g (σ.lenient strict))) :
    Follows σ strict view' (MonadReader.read >>= f) (MonadReader.read >>= g) where
  records := h.records
  follows := h.follows

/-- The setting is read, but not which dialect it is. -/
theorem reading {f g : Setting → Typing β} (hf : f σ.firm = f σ)
    (hg : g (σ.lenient strict) = g σ) (h : Follows σ strict view' (f σ) (g σ)) :
    Follows σ strict view' (MonadReader.read >>= f) (MonadReader.read >>= g) :=
  read (hf ▸ hg ▸ h)

theorem get {f g : Scope → Typing β}
    (h : ∀ s ds, Follows σ strict view' (f s) (g (s.withDiagnostics ds))) :
    Follows σ strict view' (MonadState.get >>= f) (MonadState.get >>= g) where
  records s := (h s []).records s
  follows s ds := (h s ds).follows s ds

/-! ## Changes of the scope -/

/-- A change of the scope that has nothing to do with diagnostics. -/
structure Apart (f : Scope → α × Scope) : Prop where
  core : ∀ s ds, f (s.withDiagnostics ds) = ((f s).1, (f s).2.withDiagnostics ds)
  diagnostics : ∀ s, (f s).2.diagnostics = s.diagnostics

theorem modifyGet {h : Scope → α × Scope} (hh : Apart h) :
    Follows σ strict id (modifyGet h) (MonadState.modifyGet h) where
  records s := ⟨[], by rw [List.append_nil]; exact hh.diagnostics s, by simp⟩
  follows s ds a t hds hrun _ := by
    cases hrun
    refine ⟨(h s).1, ds, ?_, rfl, (hh.diagnostics s).symm ▸ hds⟩
    rw [runFrom_modifyGet, hh.core]

theorem changes {h : Scope → Scope} (hh : Apart fun s => (PUnit.unit, h s)) :
    Follows σ strict id (modify h : Typing PUnit) (modify h) :=
  modifyGet hh

/-- A handler matters only where it does not lead to a clean end. -/
theorem tryCatch {h h' : Rejection → Typing α} (hx : Follows σ strict view x y)
    (hrecords : ∀ r, Records σ (h r))
    (hfails : ∀ r s a t, (h r).runFrom σ.firm s = (.ok a, t) → ¬ t.Clean) :
    Follows σ strict view (tryCatch x h) (MonadExcept.tryCatch y h') where
  records := hx.records.tryCatch hrecords
  follows s ds a t hds hrun hclean := by
    rw [runFrom_tryCatch] at hrun
    rcases hxs : x.runFrom σ.firm s with ⟨r | a1, t1⟩ <;> rw [hxs] at hrun
    · exact (hfails r t1 a t hrun hclean).elim
    · cases hrun
      obtain ⟨a', es, hys, hview, hes⟩ := hx.follows s ds a t hds hxs hclean
      refine ⟨a', es, ?_, hview, hes⟩
      rw [runFrom_tryCatch, hys]

/-- A handler that undoes a change of the scope and rejects again. -/
theorem undoing {undo : Scope → Scope} {h' : Rejection → Typing α}
    (hundo : ∀ s, (undo s).diagnostics = s.diagnostics) (hx : Follows σ strict view x y) :
    Follows σ strict view
      (MonadExcept.tryCatch x fun r => modify undo >>= fun _ => MonadExcept.throw r)
      (MonadExcept.tryCatch y h') :=
  hx.tryCatch (fun _ => (Records.modify hundo).bind fun _ => .throw) fun r s a t hrun => by
    cases hrun

theorem bracket {enter leave : Scope → Scope} (henter : Apart fun s => (PUnit.unit, enter s))
    (hleave : Apart fun s => (PUnit.unit, leave s)) (hx : Follows σ strict view x y) :
    Follows σ strict view (bracket enter leave x) (Typing.bracket enter leave y) := by
  unfold Typing.bracket
  refine (changes henter).bind fun _ _ _ => undoing hleave.diagnostics ?_
  exact hx.bind fun _ _ ha => (changes hleave).bind fun _ _ _ => pure ha

theorem inBlock (hx : Follows σ strict view x y) :
    Follows σ strict (Prod.map view id) (inBlock x) (Typing.inBlock y) := by
  have hpush : Apart fun s => (PUnit.unit, s.pushBlock) := ⟨fun _ _ => rfl, fun _ => rfl⟩
  have hpop : Apart Scope.popBlock := ⟨fun _ _ => rfl, fun _ => rfl⟩
  unfold Typing.inBlock
  refine (changes hpush).bind fun _ _ _ => undoing hpop.diagnostics ?_
  refine hx.bind fun a a' ha => (modifyGet hpop).bind fun l l' hl => pure ?_
  exact Prod.ext ha hl

theorem inLoop (hx : Follows σ strict view x y) :
    Follows σ strict (Prod.map view id) (inLoop x) (Typing.inLoop y) := by
  have henter : Apart fun s => (PUnit.unit, s.enterLoop) := ⟨fun _ _ => rfl, fun _ => rfl⟩
  have hleave : Apart Scope.leaveLoop := ⟨fun _ _ => rfl, fun _ => rfl⟩
  unfold Typing.inLoop
  refine (changes henter).bind fun _ _ _ => undoing hleave.diagnostics ?_
  refine hx.bind fun a a' ha => (modifyGet hleave).bind fun n n' hn => pure ?_
  exact Prod.ext ha hn

/-! ## Diagnostics -/

theorem record (hd : d.severity ≠ .optError) :
    Follows σ strict id (modify (Scope.record d) : Typing PUnit) (modify (Scope.record d)) where
  records := .record hd
  follows s ds _ _ hds hrun _ := by
    cases hrun
    exact ⟨⟨⟩, ds ++ [d], rfl, rfl, hds.append (.keep d .nil)⟩

theorem warn {span : Span} {fault : Fault} :
    Follows σ strict id (warn span fault) (Typing.warn span fault) :=
  record (by simp)

theorem log {span : Span} {message : String} :
    Follows σ strict id (log span message) (Typing.log span message) :=
  record (by simp)

/-- What only the lax dialect tolerates is rejected in the usual one. -/
theorem tolerate {span : Span} {fault : Fault} {y : Typing Unit} :
    Follows σ strict id (tolerate span fault) y where
  records s := ⟨[], by simp [Typing.tolerate, runFrom_bind, Setting.firm, Typing.reject]⟩
  follows s ds a t _ hrun _ := by cases hrun

/-- A warning about truncation may be left out. -/
theorem silence {f : PUnit → Typing α} (hcode : fault.code = Code.floatTruncated.id)
    (h : Follows σ strict view (f ⟨⟩) y) :
    Follows σ strict view (Typing.warn span fault >>= f) y where
  records := (Records.record (by simp)).bind fun _ => h.records
  follows s ds a t hds hrun hclean := by
    let d : Diagnostic :=
      { severity := .warning, code := some fault.code, message := fault.message,
        label := some ⟨span, ""⟩ }
    exact h.follows (s.record d) ds a t (hds.silence ⟨rfl, congrArg some hcode⟩) hrun hclean

/-! ## Checks -/

theorem guarded {p : Prop} [Decidable p] {f g : PUnit → Typing β}
    (h : ¬ p → Follows σ strict view' (f ⟨⟩) (g ⟨⟩)) :
    Follows σ strict view' (if p then Typing.reject span fault >>= f else f ⟨⟩)
      (if p then Typing.reject span fault >>= g else g ⟨⟩) := by
  split
  · exact throw
  · exact h ‹_›

theorem whenever {p : Prop} [Decidable p] {x y : Typing PUnit} {f g : PUnit → Typing β}
    (hx : Follows σ strict id x y) (h : Follows σ strict view' (f ⟨⟩) (g ⟨⟩)) :
    Follows σ strict view' (if p then x >>= f else f ⟨⟩) (if p then y >>= g else g ⟨⟩) := by
  split
  · exact hx.bind fun _ _ _ => h
  · exact h

theorem describe {ty : Ty} : Follows σ strict id (describe ty) (Typing.describe ty) :=
  reading rfl rfl (pure rfl)

theorem typeNamed {span : Span} {name : String} :
    Follows σ strict id (typeNamed span name) (Typing.typeNamed span name) := by
  refine reading rfl rfl ?_
  split
  · exact pure rfl
  · exact reject

end Follows

end Typing

end ActorScript
