import ActorScript.Typing.Expression

/-! # What steps of typing establish

A step of typing gives a value or is rejected, and in either case it leaves a scope. Steps that
type expressions leave the scope as it was, but for diagnostics.
-/

namespace ActorScript

variable {span : Span} {fault : Fault}

namespace Typing

variable {α β : Type} {σ : Setting} {s : Scope}

/-! ## Runs -/

@[simp]
theorem runFrom_pure (a : α) : (pure a : Typing α).runFrom σ s = (.ok a, s) := rfl

theorem runFrom_bind (x : Typing α) (f : α → Typing β) :
    (x >>= f).runFrom σ s = match x.runFrom σ s with
      | (.ok a, s') => (f a).runFrom σ s'
      | (.error r, s') => (.error r, s') := by
  change (ExceptT.bindCont (fun a => (f a).run σ) (x.runFrom σ s).1).run (x.runFrom σ s).2 = _
  rcases x.runFrom σ s with ⟨a | r, s'⟩ <;> rfl

@[simp]
theorem runFrom_throw (r : Rejection) : (throw r : Typing α).runFrom σ s = (.error r, s) := rfl

@[simp]
theorem runFrom_read : (MonadReader.read : Typing Setting).runFrom σ s = (.ok σ, s) := rfl

@[simp]
theorem runFrom_get : (MonadState.get : Typing Scope).runFrom σ s = (.ok s, s) := rfl

@[simp]
theorem runFrom_set (s' : Scope) : (set s' : Typing PUnit).runFrom σ s = (.ok ⟨⟩, s') := rfl

@[simp]
theorem runFrom_modify (f : Scope → Scope) :
    (modify f : Typing PUnit).runFrom σ s = (.ok ⟨⟩, f s) := rfl

@[simp]
theorem runFrom_modifyGet (f : Scope → α × Scope) :
    (modifyGet f : Typing α).runFrom σ s = (.ok (f s).1, (f s).2) := rfl

theorem runFrom_tryCatch (x : Typing α) (f : Rejection → Typing α) :
    (tryCatch x f).runFrom σ s = match x.runFrom σ s with
      | (.ok a, s') => (.ok a, s')
      | (.error r, s') => (f r).runFrom σ s' := by
  simp only [runFrom, tryCatch, tryCatchThe, MonadExceptOf.tryCatch, ReaderT.run, ExceptT.run,
    StateT.run, ExceptT.tryCatch, ExceptT.mk, bind, StateT.bind]
  rcases x σ s with ⟨r | a, s'⟩ <;> rfl

end Typing

/-! ## Steps that leave the scope as it was -/

def Scope.core (s : Scope) : Scope :=
  { s with diagnostics := [] }

@[simp] theorem Scope.core_record (d : Diagnostic) (s : Scope) : (s.record d).core = s.core := rfl

section

variable {s s' : Scope} (h : s'.core = s.core)

include h

theorem Scope.typeOf_eq (id : LocalId) : s'.typeOf id = s.typeOf id :=
  show s'.core.typeOf id = s.core.typeOf id by rw [h]

theorem Scope.lookupOrder_eq : s'.lookupOrder = s.lookupOrder :=
  show s'.core.lookupOrder = s.core.lookupOrder by rw [h]

theorem Scope.targets_eq : s'.targets = s.targets :=
  show s'.core.targets = s.core.targets by rw [h]

theorem Scope.visibleNames_eq : s'.visibleNames = s.visibleNames :=
  show s'.core.visibleNames = s.core.visibleNames by rw [h]

theorem Scope.find?_eq (name : String) : s'.find? name = s.find? name :=
  show s'.core.find? name = s.core.find? name by rw [h]

end

def Scope.recordAll (ds : List Diagnostic) (s : Scope) : Scope :=
  { s with diagnostics := s.diagnostics ++ ds }

namespace Scope

variable {s s' : Scope} {ds es : List Diagnostic}

@[simp] theorem core_recordAll : (s.recordAll ds).core = s.core := rfl

@[simp] theorem recordAll_nil : s.recordAll [] = s := by
  simp [recordAll]

@[simp] theorem recordAll_recordAll :
    (s.recordAll ds).recordAll es = s.recordAll (ds ++ es) := by
  simp [recordAll]

/-- A scope that has only been added diagnostics to. -/
structure Noted (s s' : Scope) : Prop where
  core : s'.core = s.core
  diagnostics : s.diagnostics <+: s'.diagnostics

theorem Noted.refl (s : Scope) : s.Noted s :=
  ⟨rfl, List.prefix_rfl⟩

theorem noted_recordAll : s.Noted (s.recordAll ds) :=
  ⟨rfl, List.prefix_append _ _⟩

end Scope

namespace Typing

/-- A step that leaves the scope as it was, but for diagnostics, and whose value is as said.
Diagnostics that are there already have no say in what the step comes to and adds. -/
def Ensures (σ : Setting) (s : Scope) (x : Typing α) (Q : α → Prop) : Prop :=
  ∃ outcome ds, (∀ s' : Scope, s'.core = s.core → x.runFrom σ s' = (outcome, s'.recordAll ds)) ∧
    ∀ a, outcome = .ok a → Q a

namespace Ensures

variable {x : Typing α} {f : α → Typing β} {P : α → Prop} {Q : β → Prop}

theorem run (h : Ensures σ s x P) :
    match x.runFrom σ s with
      | (.ok a, s') => s.Noted s' ∧ P a
      | (.error _, s') => s.Noted s' := by
  obtain ⟨outcome, ds, hx, hP⟩ := h
  rw [hx s rfl]
  cases outcome with
  | error r => exact Scope.noted_recordAll
  | ok a => exact ⟨Scope.noted_recordAll, hP a rfl⟩

theorem of_run (h : Ensures σ s x P) {a : α} {s' : Scope} (hrun : x.runFrom σ s = (.ok a, s')) :
    P a := by
  have hrun' := h.run
  rw [hrun] at hrun'
  exact hrun'.2

theorem pure {a : α} (h : P a) : Ensures σ s (Pure.pure a) P :=
  ⟨.ok a, [], fun _ _ => by simp, by rintro _ ⟨⟩; exact h⟩

theorem bind (hx : Ensures σ s x P) (hf : ∀ a, P a → Ensures σ s (f a) Q) :
    Ensures σ s (x >>= f) Q := by
  obtain ⟨outcome, ds, hx, hP⟩ := hx
  cases outcome with
  | error r => exact ⟨.error r, ds, fun s' hs' => by rw [runFrom_bind, hx s' hs'], by simp⟩
  | ok a =>
    obtain ⟨outcome, es, hf, hQ⟩ := hf a (hP a rfl)
    refine ⟨outcome, ds ++ es, fun s' hs' => ?_, hQ⟩
    rw [runFrom_bind, hx s' hs']
    exact (hf _ (by simpa using hs')).trans (by simp)

theorem mono {P' : α → Prop} (hx : Ensures σ s x P) (h : ∀ a, P a → P' a) : Ensures σ s x P' := by
  obtain ⟨outcome, ds, hx, hP⟩ := hx
  exact ⟨outcome, ds, hx, fun a ha => h a (hP a ha)⟩

theorem throw {r : Rejection} : Ensures σ s (throw r) P :=
  ⟨.error r, [], fun _ _ => by simp, by simp⟩

theorem reject : Ensures σ s (reject span fault) P :=
  throw

theorem read {f : Setting → Typing β} (h : Ensures σ s (f σ) Q) :
    Ensures σ s (MonadReader.read >>= f) Q :=
  h

/-- A step that looks at the scope, but not at its diagnostics. -/
theorem get {f : Scope → Typing β} (hcore : ∀ s', s'.core = s.core → f s' = f s)
    (h : Ensures σ s (f s) Q) : Ensures σ s (MonadState.get >>= f) Q := by
  obtain ⟨outcome, ds, hf, hQ⟩ := h
  refine ⟨outcome, ds, fun s' hs' => ?_, hQ⟩
  rw [runFrom_bind, runFrom_get]
  exact (congrArg (·.runFrom σ s') (hcore s' hs')).trans (hf s' hs')

theorem record {d : Diagnostic} :
    Ensures σ s (modify (Scope.record d) : Typing PUnit) fun _ => True :=
  ⟨.ok ⟨⟩, [d], fun _ _ => rfl, fun _ _ => trivial⟩

theorem report {severity : Severity} {span : Span} {code : Option String} {message : String} :
    Ensures σ s (report severity span code message) fun _ => True :=
  record

theorem warn : Ensures σ s (warn span fault) fun _ => True :=
  report

theorem log {message : String} : Ensures σ s (log span message) fun _ => True :=
  report

theorem tolerate : Ensures σ s (tolerate span fault) fun _ => True := by
  refine read ?_
  split
  · exact report
  · exact reject

theorem whenever {p : Prop} [Decidable p] {y : Typing PUnit} {f : PUnit → Typing β}
    (hy : Ensures σ s y fun _ => True) (hf : ∀ u, Ensures σ s (f u) Q) :
    Ensures σ s (if p then y >>= f else f ⟨⟩) Q := by
  split
  · exact bind hy fun u _ => hf u
  · exact hf ⟨⟩

theorem guarded {p : Prop} [Decidable p] {f : PUnit → Typing β} (hf : ¬ p → Ensures σ s (f ⟨⟩) Q) :
    Ensures σ s (if p then Typing.reject span fault >>= f else f ⟨⟩) Q := by
  split
  · exact bind (P := fun _ => False) reject fun _ h => h.elim
  · exact hf ‹_›

theorem describe {ty : Ty} : Ensures σ s (describe ty) fun _ => True :=
  read (pure trivial)

theorem typeNamed {name : String} : Ensures σ s (typeNamed span name) fun _ => True := by
  refine read ?_
  split
  · exact pure trivial
  · exact reject

/-- A step between changes of the scope that undo each other. -/
theorem bracket {enter leave : Scope → Scope} (hx : Ensures σ (enter s) x P)
    (henter : ∀ s', s'.core = s.core → (enter s').core = (enter s).core)
    (hleave : ∀ s' ds, leave ((enter s').recordAll ds) = s'.recordAll ds) :
    Ensures σ s (bracket enter leave x) P := by
  obtain ⟨outcome, ds, hx, hP⟩ := hx
  refine ⟨outcome, ds, fun s' hs' => ?_, hP⟩
  simp only [Typing.bracket, runFrom_bind, runFrom_modify, runFrom_tryCatch, hx _ (henter s' hs')]
  cases outcome <;> simp [hleave]

end Ensures

end Typing

end ActorScript
