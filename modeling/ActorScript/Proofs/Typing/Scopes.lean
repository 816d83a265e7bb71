import ActorScript.Proofs.Typing.Settling
import ActorScript.Typing.Statement

/-! # Scopes on the way through statements

Typing a statement only ever adds to a scope: variables, some of them to the innermost block,
and jumps of the innermost loop. This is so also if the statement is rejected.
-/

namespace ActorScript

variable {s s' : Scope} {added : List LocalId} {span : Span}

/-- A scope after typing part of a body: `added` are the new variables of the innermost block and
`jumps` counts the new jumps of the innermost loop. -/
structure Scope.Extends (s s' : Scope) (added : List LocalId) (jumps : Nat) : Prop where
  locals : s.locals.toList <+: s'.locals.toList
  params : s'.params = s.params
  blocks : s'.blocks = s.blocks.modifyHead (· ++ added)
  loops : s'.loops = s.loops.modifyHead (· + jumps)
  targets : s'.targets = s.targets
  diagnostics : s.diagnostics <+: s'.diagnostics
  fresh : ∀ v ∈ added, s.locals.size ≤ v ∧ v < s'.locals.size
  inBlock : s.blocks = [] → added = []
  inLoop : s.loops = [] → jumps = 0

/-- A scope between statements: the visible variables are its own and no assignment is open. -/
structure Scope.Ready (s : Scope) : Prop where
  visible : ∀ v ∈ s.lookupOrder, v < s.locals.size
  targets : s.targets = []

/-- A context that knows the types of all variables of a scope. -/
structure Context.Covers (c : Context) (σ : Setting) (s : Scope) : Prop where
  setting : c.setting = σ
  kind : σ.selfClass?.isSome → c.kind ≠ .static
  types : ∀ id < s.locals.size, c.types id = s.typeOf id
  target : c.target = none

namespace Scope.Extends

variable {s s1 s' : Scope} {added added' : List LocalId} {jumps jumps' : Nat}

theorem size_le (h : s.Extends s' added jumps) : s.locals.size ≤ s'.locals.size := by
  simpa using h.locals.length_le

theorem typeOf_eq (h : s.Extends s' added jumps) {id : LocalId} (hid : id < s.locals.size) :
    s'.typeOf id = s.typeOf id := by
  obtain ⟨more, hmore⟩ := h.locals
  have hget : s'.locals[id]? = s.locals[id]? := by
    rw [← Array.getElem?_toList, ← hmore, List.getElem?_append_left (by simpa using hid),
      Array.getElem?_toList]
  simp [Scope.typeOf, hget]

theorem mem_lookupOrder (h : s.Extends s' added jumps) (v : LocalId) :
    v ∈ s'.lookupOrder ↔ v ∈ s.lookupOrder ∨ v ∈ added := by
  unfold Scope.lookupOrder
  rw [h.blocks, h.params]
  cases hb : s.blocks with
  | nil => simp [h.inBlock hb]
  | cons block outer =>
    simp only [List.modifyHead_cons, List.flatMap_cons, List.reverse_append, List.mem_append,
      List.mem_reverse]
    grind

theorem ready (h : s.Extends s' added jumps) (hs : s.Ready) : s'.Ready where
  visible v hv := by
    rcases (h.mem_lookupOrder v).1 hv with hv | hv
    · exact Nat.lt_of_lt_of_le (hs.visible v hv) h.size_le
    · exact (h.fresh v hv).2
  targets := h.targets.trans hs.targets

theorem ofNoted (h : s.Noted s') : s.Extends s' [] 0 := by
  have hc := h.core
  simp only [Scope.core, Scope.mk.injEq] at hc
  obtain ⟨hlocals, hparams, hblocks, hloops, htargets, -, -⟩ := hc
  exact { h with
    locals := by simp [hlocals]
    params := hparams
    blocks := by rw [hblocks]; cases s.blocks <;> simp
    loops := by rw [hloops]; cases s.loops <;> simp
    targets := htargets
    fresh := by simp
    inBlock := fun _ => rfl
    inLoop := fun _ => rfl }

theorem refl (s : Scope) : s.Extends s [] 0 :=
  ofNoted (.refl s)

theorem trans (h : s.Extends s1 added jumps) (h' : s1.Extends s' added' jumps') :
    s.Extends s' (added ++ added') (jumps + jumps') where
  locals := h.locals.trans h'.locals
  params := h'.params.trans h.params
  blocks := by
    rw [h'.blocks, h.blocks]
    cases s.blocks <;> simp
  loops := by
    rw [h'.loops, h.loops]
    cases s.loops <;> simp [Nat.add_assoc]
  targets := h'.targets.trans h.targets
  diagnostics := h.diagnostics.trans h'.diagnostics
  fresh v hv := by
    rcases List.mem_append.1 hv with hv | hv
    · exact ⟨(h.fresh v hv).1, Nat.lt_of_lt_of_le (h.fresh v hv).2 h'.size_le⟩
    · exact ⟨Nat.le_trans h.size_le (h'.fresh v hv).1, (h'.fresh v hv).2⟩
  inBlock hs := by
    have hs1 : s1.blocks = [] := by rw [h.blocks, hs]; rfl
    rw [h.inBlock hs, h'.inBlock hs1]
    rfl
  inLoop hs := by
    have hs1 : s1.loops = [] := by rw [h.loops, hs]; rfl
    rw [h.inLoop hs, h'.inLoop hs1]

/-- Behind a block of its own, only the numbers of its variables are used up. -/
theorem closeBlock (h : s.pushBlock.Extends s' added jumps) :
    s.Extends s'.popBlock.2 [] jumps ∧ s'.popBlock.1 = added where
  left := { h with
    blocks := by
      have hb := h.blocks
      simp only [Scope.pushBlock, List.modifyHead_cons] at hb
      cases hs : s.blocks <;> simp [Scope.popBlock, hb, hs]
    fresh := by simp
    inBlock := fun _ => rfl
    inLoop := h.inLoop }
  right := by
    have hb := h.blocks
    simp only [Scope.pushBlock, List.modifyHead_cons, List.nil_append] at hb
    simp [Scope.popBlock, hb]

/-- Behind a loop of its own, its jumps have been counted. -/
theorem leaveLoop (h : s.enterLoop.Extends s' added jumps) :
    s.Extends s'.leaveLoop.2 added 0 ∧ s'.leaveLoop.1 = jumps where
  left := { h with
    loops := by
      have hl := h.loops
      simp only [Scope.enterLoop, List.modifyHead_cons] at hl
      cases hs : s.loops <;> simp [Scope.leaveLoop, hl, hs]
    inLoop := fun _ => rfl }
  right := by
    have hl := h.loops
    simp only [Scope.enterLoop, List.modifyHead_cons, Nat.zero_add] at hl
    simp [Scope.leaveLoop, hl]

end Scope.Extends

theorem Scope.Ready.pushBlock (h : s.Ready) : s.pushBlock.Ready :=
  ⟨fun v hv => h.visible v (by simpa [Scope.lookupOrder, Scope.pushBlock] using hv), h.targets⟩

theorem Scope.Ready.enterLoop (h : s.Ready) : s.enterLoop.Ready :=
  ⟨h.visible, h.targets⟩

theorem Context.Covers.earlier {c : Context} {σ : Setting} {jumps : Nat} (hc : c.Covers σ s')
    (h : s.Extends s' added jumps) : c.Covers σ s where
  __ := hc
  types id hid := (hc.types id (Nat.lt_of_lt_of_le hid h.size_le)).trans (h.typeOf_eq hid)

theorem Context.Covers.fits {c : Context} {σ : Setting} (hc : c.Covers σ s) (hs : s.Ready) :
    c.Fits σ s where
  __ := hc
  types id hid := hc.types id (hs.visible id hid)
  target := by simp [hc.target, hs.targets]

/-! ## Steps that extend scopes -/

namespace Typing

variable {α β : Type} {σ : Setting} {s : Scope} {x : Typing α} {f : α → Typing β}

/-- From a scope, a step leaves an extension of it, with the value as said unless it is
rejected. -/
def Advances (σ : Setting) (s : Scope) (x : Typing α)
    (Q : α → Scope → List LocalId → Nat → Prop) : Prop :=
  match x.runFrom σ s with
  | (.ok a, s') => ∃ added jumps, s.Extends s' added jumps ∧ Q a s' added jumps
  | (.error _, s') => ∃ added jumps, s.Extends s' added jumps

namespace Advances

variable {P : α → Scope → List LocalId → Nat → Prop} {Q : β → Scope → List LocalId → Nat → Prop}

theorem of_run (h : Advances σ s x P) {a : α} (hrun : x.runFrom σ s = (.ok a, s')) :
    ∃ added jumps, s.Extends s' added jumps ∧ P a s' added jumps := by
  rwa [Advances, hrun] at h

theorem pure {a : α} (h : P a s [] 0) : Advances σ s (Pure.pure a) P :=
  ⟨[], 0, .refl s, h⟩

theorem throw {r : Rejection} : Advances σ s (throw r) P :=
  ⟨[], 0, .refl s⟩

theorem get {f : Scope → Typing β} (h : Advances σ s (f s) Q) :
    Advances σ s (MonadState.get >>= f) Q :=
  h

theorem set {P : PUnit → Scope → List LocalId → Nat → Prop} {jumps : Nat}
    (h : s.Extends s' added jumps) (hP : P ⟨⟩ s' added jumps) :
    Advances σ s (MonadStateOf.set s') P :=
  ⟨added, jumps, h, hP⟩

theorem ite {p : Prop} [Decidable p] {y : Typing α} (hx : p → Advances σ s x P)
    (hy : ¬ p → Advances σ s y P) : Advances σ s (if p then x else y) P := by
  split
  · exact hx ‹_›
  · exact hy ‹_›

theorem bind (hx : Advances σ s x P)
    (hf : ∀ a s1 added jumps, s.Extends s1 added jumps → P a s1 added jumps →
      Advances σ s1 (f a) fun b s' added' jumps' => Q b s' (added ++ added') (jumps + jumps')) :
    Advances σ s (x >>= f) Q := by
  unfold Advances at hx ⊢
  rw [runFrom_bind]
  rcases hrun : x.runFrom σ s with ⟨r | a, s1⟩
  · simpa [hrun] using hx
  · simp only [hrun] at hx ⊢
    obtain ⟨added, jumps, h, ha⟩ := hx
    have hf := hf a s1 added jumps h ha
    unfold Advances at hf
    rcases hrun' : (f a).runFrom σ s1 with ⟨r | b, s'⟩ <;> simp only [hrun'] at hf ⊢
    · obtain ⟨added', jumps', h'⟩ := hf
      exact ⟨_, _, h.trans h'⟩
    · obtain ⟨added', jumps', h', hb⟩ := hf
      exact ⟨_, _, h.trans h', hb⟩

theorem mono {P' : α → Scope → List LocalId → Nat → Prop} (hx : Advances σ s x P)
    (h : ∀ a s' added jumps, s.Extends s' added jumps → P a s' added jumps →
      P' a s' added jumps) : Advances σ s x P' := by
  unfold Advances at hx ⊢
  rcases hrun : x.runFrom σ s with ⟨r | a, s'⟩ <;> simp only [hrun] at hx ⊢
  · exact hx
  · obtain ⟨added, jumps, hs, ha⟩ := hx
    exact ⟨added, jumps, hs, h a s' added jumps hs ha⟩

theorem ofEnsures {R : α → Prop} (h : Ensures σ s x R) :
    Advances σ s x fun a s' added jumps => s.Noted s' ∧ added = [] ∧ jumps = 0 ∧ R a := by
  have hs := h.run
  unfold Advances
  rcases hrun : x.runFrom σ s with ⟨r | a, s'⟩ <;> simp only [hrun] at hs ⊢
  · exact ⟨[], 0, .ofNoted hs⟩
  · exact ⟨[], 0, .ofNoted hs.1, hs.1, rfl, rfl, hs.2⟩

theorem after {R : α → Prop} (hx : Ensures σ s x R)
    (hf : ∀ a s1, s.Noted s1 → R a → Advances σ s1 (f a) Q) : Advances σ s (x >>= f) Q := by
  refine bind (ofEnsures hx) ?_
  rintro a s1 _ _ - ⟨hn, rfl, rfl, ha⟩
  simpa using hf a s1 hn ha

/-- A step that is rejected at last leaves what it did before. -/
theorem tryCatch {h : Rejection → Typing α} (hx : Advances σ s x P)
    (hh : ∀ r s1 added jumps, s.Extends s1 added jumps →
      Advances σ s1 (h r) fun a s' added' jumps' => P a s' (added ++ added') (jumps + jumps')) :
    Advances σ s (tryCatch x h) P := by
  unfold Advances at hx ⊢
  rw [runFrom_tryCatch]
  rcases hrun : x.runFrom σ s with ⟨r | a, s1⟩ <;> simp only [hrun] at hx ⊢
  · obtain ⟨added, jumps, hs⟩ := hx
    have hh := hh r s1 added jumps hs
    unfold Advances at hh
    rcases hrun' : (h r).runFrom σ s1 with ⟨r' | a, s'⟩ <;> simp only [hrun'] at hh ⊢
    · obtain ⟨added', jumps', hs'⟩ := hh
      exact ⟨_, _, hs.trans hs'⟩
    · obtain ⟨added', jumps', hs', ha⟩ := hh
      exact ⟨_, _, hs.trans hs', ha⟩
  · exact hx

theorem inBlock (hx : Advances σ s.pushBlock x P) :
    Advances σ s (inBlock x) fun (a, locals) s' added jumps =>
      added = [] ∧ ∃ s1, s' = s1.popBlock.2 ∧ s.pushBlock.Extends s1 locals jumps ∧
        P a s1 locals jumps := by
  unfold Advances at hx ⊢
  simp only [Typing.inBlock, runFrom_bind, runFrom_modify, runFrom_tryCatch]
  rcases hrun : x.runFrom σ s.pushBlock with ⟨r | a, s1⟩ <;> simp only [hrun] at hx ⊢
  · obtain ⟨added, jumps, hs⟩ := hx
    exact ⟨[], jumps, hs.closeBlock.1⟩
  · obtain ⟨added, jumps, hs, ha⟩ := hx
    simp only [runFrom_modifyGet, runFrom_pure]
    refine ⟨[], jumps, hs.closeBlock.1, rfl, s1, rfl, ?_⟩
    rw [hs.closeBlock.2]
    exact ⟨hs, ha⟩

theorem inLoop (hx : Advances σ s.enterLoop x P) :
    Advances σ s (inLoop x) fun (a, count) s' added jumps =>
      jumps = 0 ∧ ∃ s1, s' = s1.leaveLoop.2 ∧ s.enterLoop.Extends s1 added count ∧
        P a s1 added count := by
  unfold Advances at hx ⊢
  simp only [Typing.inLoop, runFrom_bind, runFrom_modify, runFrom_tryCatch]
  rcases hrun : x.runFrom σ s.enterLoop with ⟨r | a, s1⟩ <;> simp only [hrun] at hx ⊢
  · obtain ⟨added, jumps, hs⟩ := hx
    exact ⟨added, 0, hs.leaveLoop.1⟩
  · obtain ⟨added, jumps, hs, ha⟩ := hx
    simp only [runFrom_modifyGet, runFrom_pure]
    refine ⟨added, 0, hs.leaveLoop.1, rfl, s1, rfl, ?_⟩
    rw [hs.leaveLoop.2]
    exact ⟨hs, ha⟩

end Advances

/-! ## Declarations, jumps and returns -/

theorem declareLocal_advances {name : String} {ty : Ty} :
    Advances σ s (declareLocal span name ty) fun id s' added jumps =>
      id = s.locals.size ∧ added = [id] ∧ jumps = 0 ∧ s'.typeOf id = ty ∧
        id < s'.locals.size := by
  unfold declareLocal
  refine .get ?_
  split
  next id s1 hdecl =>
    simp only [Scope.declareLocal] at hdecl
    split at hdecl
    next => cases hdecl
    next block outer hb =>
      split at hdecl
      next => cases hdecl
      next =>
        cases hdecl
        have hs := Scope.Extends.refl s
        refine ⟨[s.locals.size], 0, ?_, rfl, rfl, rfl, by simp [Scope.typeOf], by simp⟩
        exact { hs with
          locals := by simp
          blocks := by simp [hb]
          fresh := by simp
          inBlock := by simp [hb] }
  next => exact .throw

theorem noteReturn_advances {types : List Ty} :
    Advances σ s (noteReturn span types) fun _ s' added jumps =>
      added = [] ∧ jumps = 0 ∧ s'.locals = s.locals := by
  unfold noteReturn
  refine .get ?_
  split
  next s1 hnote =>
    obtain ⟨joined, -, rfl⟩ := Option.map_eq_some_iff.1 hnote
    have hs := Scope.Extends.refl s
    exact .set { hs with } ⟨rfl, rfl, rfl⟩
  next => exact .throw

theorem noteJump_advances {keyword : String} :
    Advances σ s (noteJump span keyword) fun _ s' added jumps =>
      added = [] ∧ jumps = 1 ∧ s'.locals = s.locals := by
  unfold noteJump
  refine .get ?_
  split
  next s1 hnote =>
    simp only [Scope.noteJump?] at hnote
    split at hnote
    next => cases hnote
    next jumps outer hl =>
      cases hnote
      have hs := Scope.Extends.refl s
      have hext : s.Extends { s with loops := (jumps + 1) :: outer } [] 1 := { hs with
        loops := by simp [hl]
        inLoop := by simp [hl] }
      exact .set hext ⟨rfl, rfl, rfl⟩
  next => exact .throw

end Typing

end ActorScript
