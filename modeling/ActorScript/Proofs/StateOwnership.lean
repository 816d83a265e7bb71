import ActorScript.Proofs.Compiled
import ActorScript.Proofs.ObjectLayout
import ActorScript.Proofs.Typing.Conversions

/-! # Whose a state is

A state is in the range of states of exactly one class, which is its owner, and labels lead to
first frames. So states that are counted belong to the class, and states found under a label with a
scope to the class or one of its ancestors.
-/

namespace ActorScript

variable {state : State} {s : Nat} {cls : ClassId} {names : List String}

namespace World

variable {w w' : World}

/-! ## Added states -/

/-- A class has been given its states: those in its range are its own, and no others. -/
structure Ownership (w : World) : Prop where
  range : ∀ (c : Nat) cls, w.class? c = some cls → cls.firstState + cls.ownedStates ≤ w.states.size
  owner : ∀ (s : Nat) state, w.state? s = some state → ∀ c : Nat,
    w.ownsState c s = true ↔ state.owner = c
  labels : ∀ (c : Nat) cls, w.class? c = some cls → ∀ label s, (label, s) ∈ cls.labels →
    ∃ state, w.state? s = some state ∧ state.owner = c ∧ state.frame = 0

theorem owner_of_mem_framesOf {id : ClassId} {decl : StateDecl} (h : state ∈ framesOf id decl) :
    state.owner = id := by
  obtain ⟨frame, -, rfl⟩ := List.mem_map.1 h
  rfl

theorem head_framesOf (id : ClassId) (decl : StateDecl) :
    (framesOf id decl)[0]? = some { owner := id, label := decl.label, frame := 0 } := by
  simp [framesOf]

/-- States are added behind the others, and belong to the class. -/
theorem addStates_toList (id : ClassId) (decls : List StateDecl) (states : Array State) :
    (addStates id decls states).1.toList = states.toList ++ decls.flatMap (framesOf id) := by
  induction decls generalizing states with
  | nil => simp [addStates]
  | cons decl rest ih => simp [addStates, ih]

theorem addStates_labels {id : ClassId} {decls : List StateDecl} {states : Array State}
    {label : String} {s : StateId} (h : (label, s) ∈ (addStates id decls states).2) :
    ∃ state, (addStates id decls states).1[s]? = some state ∧ state.owner = id ∧
      state.frame = 0 := by
  induction decls generalizing states with
  | nil => cases h
  | cons decl rest ih =>
    rcases List.mem_cons.1 h with heq | h
    · cases heq
      refine ⟨{ owner := id, label := decl.label, frame := 0 }, ?_, rfl, rfl⟩
      rw [← Array.getElem?_toList, addStates_toList, List.flatMap_cons]
      have hhead := head_framesOf id decl
      have hlt := (List.getElem?_eq_some_iff.1 hhead).1
      rw [List.getElem?_append_right (by simp), Array.length_toList, Nat.sub_self,
        List.getElem?_append_left hlt, hhead]
    · exact ih h

/-! ## Steps of a load -/

theorem ownsState_iff {c : Nat} : w.ownsState c s = true ↔
    ∃ cls, w.class? c = some cls ∧ cls.firstState ≤ s ∧ s < cls.firstState + cls.ownedStates := by
  unfold ownsState
  cases w.class? c with
  | none => simp
  | some cls => simp

theorem ownsState_blank {c : Nat} {cls : Class} (hcls : w.class? c = some cls)
    (hblank : cls = { name := cls.name }) : w.ownsState c s = false := by
  have hrange : cls.firstState + cls.ownedStates = 0 := hblank ▸ rfl
  simp only [ownsState, hcls, hrange, Nat.not_lt_zero, decide_false, Bool.and_false]

theorem Ownership.of_eq (hw : w.Ownership) (hclasses : w'.classes = w.classes)
    (hstates : w'.states = w.states) : w'.Ownership := by
  have hclass (c : ClassId) : w'.class? c = w.class? c := by simp [class?, hclasses]
  have hstate (s : StateId) : w'.state? s = w.state? s := by simp [state?, hstates]
  refine ⟨fun c cls hcls => ?_, fun s state hs c => ?_, fun c cls hcls label s hlabel => ?_⟩
  · rw [hclass] at hcls
    rw [hstates]
    exact hw.range c cls hcls
  · rw [hstate] at hs
    rw [ownsState, hclass]
    exact hw.owner s state hs c
  · rw [hclass] at hcls
    rw [hstate]
    exact hw.labels c cls hcls label s hlabel

theorem Ownership.register (hw : w.Ownership) (name : String) :
    Ownership { w with classes := w.classes.push { name } } where
  range c cls hcls := by
    rw [class?_push] at hcls
    split at hcls
    · cases hcls
      exact Nat.zero_le _
    · exact hw.range c cls hcls
  owner s state hs c := by
    rw [← hw.owner s state hs c, ownsState, ownsState, class?_push]
    by_cases hc : c = w.classes.size
    · -- The new class owns nothing, like a number that no class has.
      have hnone : w.class? c = none := by simp [class?, hc]
      rw [if_pos hc, hnone]
      simp
    · rw [if_neg hc]
  labels c cls hcls := by
    rw [class?_push] at hcls
    split at hcls
    · cases hcls
      simp
    · exact hw.labels c cls hcls

section Define

variable {id : Nat} {decl : ClassDecl} {parent : Option ClassId} {layout : ClassLayout}

/-- A state of a world in which a class has been given its states: one from before or a new one. -/
theorem state?_fillIn (h : (w.fillIn id decl parent layout).state? s = some state) :
    w.state? s = some state ∧ s < w.states.size ∨
      w.states.size ≤ s ∧ s < (w.fillIn id decl parent layout).states.size ∧ state.owner = id := by
  have hlt := (Array.getElem?_eq_some_iff.1 h).1
  rw [state?, ← Array.getElem?_toList, fillIn, addStates_toList] at h
  by_cases hs : s < w.states.size
  · rw [List.getElem?_append_left (by simpa using hs), Array.getElem?_toList] at h
    exact .inl ⟨h, hs⟩
  · rw [List.getElem?_append_right (by simpa using hs)] at h
    obtain ⟨decl, -, hmem⟩ := List.mem_flatMap.1 (List.mem_of_getElem? h)
    exact .inr ⟨by omega, hlt, owner_of_mem_framesOf hmem⟩

theorem state?_fillIn_of_some (h : w.state? s = some state) :
    (w.fillIn id decl parent layout).state? s = some state := by
  have hlt := (Array.getElem?_eq_some_iff.1 h).1
  rw [state?, ← Array.getElem?_toList, fillIn, addStates_toList,
    List.getElem?_append_left (by simpa using hlt), Array.getElem?_toList]
  exact h

theorem size_states_fillIn :
    w.states.size ≤ (w.fillIn id decl parent layout).states.size := by
  have hlength := congrArg List.length (addStates_toList id decl.states w.states)
  rw [Array.length_toList, List.length_append, Array.length_toList] at hlength
  exact Nat.le.intro hlength.symm

theorem Ownership.define (hw : w.Ownership) (hid : id < w.classes.size) (hblank : w.BlankFrom id) :
    (w.fillIn id decl parent layout).Ownership where
  range c cls hcls := by
    have hsize : w.states.size ≤ (w.fillIn id decl parent layout).states.size := size_states_fillIn
    rw [class?_fillIn hid] at hcls
    split at hcls
    · cases hcls
      exact Nat.le_of_eq (Nat.add_sub_cancel' hsize)
    · exact Nat.le_trans (hw.range c cls hcls) hsize
  owner s state hs c := by
    obtain ⟨cls, hcls⟩ := exists_class? hid
    rcases state?_fillIn hs with ⟨hs, hlt⟩ | ⟨hle, hlt, howner⟩
    · -- A state from before is not in the new range, and the class had none.
      rw [← hw.owner s state hs c]
      by_cases hc : c = id
      · subst hc
        rw [ownsState_blank hcls (hblank c cls (Nat.le_refl c) hcls), ownsState, class?_fillIn hid,
          if_pos rfl]
        have hbefore : ¬ w.states.size ≤ s := by omega
        simp [filledClass, hbefore]
      · rw [ownsState, class?_fillIn hid, if_neg hc, ownsState]
    · rw [howner]
      by_cases hc : c = id
      · subst hc
        refine iff_of_true (ownsState_iff.2 ⟨_, by rw [class?_fillIn hid, if_pos rfl], hle, ?_⟩) rfl
        have hsize : w.states.size ≤ (w.fillIn c decl parent layout).states.size := size_states_fillIn
        exact Nat.lt_of_lt_of_eq hlt (Nat.add_sub_cancel' hsize).symm
      · refine iff_of_false (fun howns => ?_) (Ne.symm hc)
        obtain ⟨cls, hcls, -, hlt⟩ := ownsState_iff.1 howns
        rw [class?_fillIn hid, if_neg hc] at hcls
        have hrange := hw.range c cls hcls
        omega
  labels c cls hcls label s hlabel := by
    rw [class?_fillIn hid] at hcls
    split at hcls
    next heq =>
      cases hcls
      obtain ⟨state, hstate, howner, hframe⟩ := addStates_labels hlabel
      exact ⟨state, hstate, howner.trans heq.symm, hframe⟩
    next =>
      obtain ⟨state, hstate, hrest⟩ := hw.labels c cls hcls label s hlabel
      exact ⟨state, state?_fillIn_of_some hstate, hrest⟩

end Define

theorem LoadStep.ownership {first : Nat} (h : LoadStep first w w') (hw : w.Ownership) :
    w'.Ownership := by
  cases h with
  | global | special => exact hw.of_eq rfl rfl
  | sound name =>
    refine hw.of_eq (addSound_classes w name) ?_
    unfold addSound
    split <;> rfl
  | register => exact hw.register _
  | define _ hid hblank => exact hw.define hid hblank

theorem Loaded.ownership (h : w.Loaded) : w.Ownership := by
  refine h.keeps ⟨?_, ?_, ?_⟩ fun _ _ _ hstep hw => hstep.ownership hw
  · exact fun c cls hcls => by simp [class?, World.empty] at hcls
  · exact fun s state hs => by simp [state?, World.empty] at hs
  · exact fun c cls hcls => by simp [class?, World.empty] at hcls

/-- A state that is found under a label belongs to an ancestor. -/
theorem Ownership.findState (hw : w.Ownership) {c : ClassId} {exact : Bool} {s : StateId}
    (h : w.findState c names exact = some s) :
    ∃ owner, w.descends c owner = true ∧ w.ownsState owner s = true := by
  unfold World.findState at h
  dsimp only at h
  split at h
  · cases h
  · obtain ⟨depth, -, hlabel⟩ := List.exists_of_findSome?_eq_some h
    obtain ⟨owner, howner, hfound⟩ := List.exists_of_findSome?_eq_some hlabel
    obtain ⟨cls, hcls, hs⟩ := Option.bind_eq_some_iff.1 hfound
    obtain ⟨before, after, heq, -⟩ := List.lookup_eq_some_iff.1 hs
    have hmem := heq ▸ List.mem_append_right before List.mem_cons_self
    obtain ⟨state, hstate, rfl, -⟩ := hw.labels owner cls hcls _ s hmem
    exact ⟨_, List.contains_iff_mem.2 howner, (hw.owner s state hstate _).2 rfl⟩

end World

/-! ## States that typing finds -/

def Expr.stateId? (e : Expr) : Option StateId :=
  match e.constant?.bind Constant.address? with
  | some (.state id) => some id
  | _ => none

namespace Setting

def Owns (σ : Setting) (id : StateId) : Prop :=
  ∃ cls, σ.cls = some cls ∧ σ.world.ownsState cls id = true

def Inherits (σ : Setting) (id : StateId) : Prop :=
  ∃ cls owner, σ.cls = some cls ∧ σ.world.descends cls owner = true ∧
    σ.world.ownsState owner id = true

end Setting

theorem Ty.eq_integer_of_isInt {ty : Ty} (h : ty.isInt = true) : ∃ kind, ty = .integer kind := by
  cases ty with
  | integer kind => exact ⟨kind, rfl⟩
  | _ => cases h

namespace Typing

variable {σ : Setting} {s : Scope} {span : Span} {x : Expr}

theorem stateAt_owns (index : Nat) :
    Ensures σ s (stateAt span index) fun e => ∀ id ∈ e.stateId?, σ.Owns id := by
  refine .read ?_
  split
  · exact .reject
  next cls hcls =>
    split
    next hindex =>
      refine .pure ?_
      rintro id ⟨⟩
      obtain ⟨k, hk, hcls⟩ := Option.bind_eq_some_iff.1 hcls
      exact ⟨k, hk, World.ownsState_iff.2 ⟨cls, hcls, Nat.le_add_right _ _,
        Nat.add_lt_add_left hindex _⟩⟩
    · exact .reject

/-- The scope of a label is an ancestor. -/
theorem labelScope_inherits (hw : σ.world.Sane) {name : String} :
    Ensures σ s (labelScope span cls name) fun scope =>
      ∀ k ∈ scope, σ.world.descends cls k = true := by
  refine .read ?_
  dsimp only
  split
  · exact .pure fun k hk => hw.descends_parent hk
  · split
    · exact .reject
    · split
      next hdescends =>
        refine .pure ?_
        rintro k ⟨⟩
        exact hdescends
      · exact .reject

theorem stateFor_inherits (hw : σ.world.Sane) (howned : σ.world.Ownership) {text : String}
    {scope : Option ClassId} (hcls : σ.cls = some cls)
    (hscope : ∀ k ∈ scope, σ.world.descends cls k = true) :
    Ensures σ s (stateFor span text names scope) fun e => ∀ id ∈ e.stateId?, σ.Inherits id := by
  have hlabel : ∀ id ∈ (Expr.stateLabel (Expr.settled span .state) text names false).stateId?,
      σ.Inherits id := nofun
  unfold stateFor
  dsimp only
  split
  · exact .pure nofun
  split
  · exact .pure hlabel
  next k =>
    refine .read ?_
    split
    next state hfound =>
      refine .pure ?_
      rintro id ⟨⟩
      obtain ⟨owner, howner, howns⟩ := howned.findState hfound
      exact ⟨cls, owner, hcls, hw.descends_trans (hscope k rfl) howner, howns⟩
    · exact .bind .tolerate fun _ _ => .pure hlabel

theorem labelled_inherits (hw : σ.world.Sane) (howned : σ.world.Ownership) (text : String) :
    Ensures σ s (labelled span text) fun e => ∀ id ∈ e.stateId?, σ.Inherits id := by
  refine .read ?_
  split
  · exact .reject
  next cls hcls =>
    dsimp only
    split
    · refine Ensures.bind (P := fun scope => ∀ k ∈ scope, σ.world.descends cls k = true) ?_ ?_
      · exact .pure (by simp)
      · exact fun scope hscope => stateFor_inherits hw howned hcls hscope
    · refine Ensures.bind (P := fun scope => ∀ k ∈ scope, σ.world.descends cls k = true) ?_ ?_
      · exact labelScope_inherits hw
      · exact fun scope hscope => stateFor_inherits hw howned hcls hscope

theorem runtimeStateAt_stateId? {tail : Bool} :
    Ensures σ s (runtimeStateAt span x tail) fun e => e.stateId? = none := by
  unfold runtimeStateAt
  split
  · exact .reject
  · split
    · exact .pure rfl
    · exact .bind (toIntArgument_bears (pliant_always {}).toHereditary always) fun _ _ => .pure rfl

theorem requireAction_checks : Ensures σ s (requireAction span) fun _ => True := by
  refine .read ?_
  split
  · exact .reject
  · exact .pure trivial

/-- An integer counts the states of the class. -/
theorem toState_owns (hx : x.ty.isInt = true) :
    Ensures σ s (toState span x) fun e => ∀ id ∈ e.stateId?, σ.Owns id := by
  obtain ⟨kind, hkind⟩ := Ty.eq_integer_of_isInt hx
  unfold toState
  rw [hkind]
  cases x.constant? with
  | some c =>
    dsimp only
    split
    · exact .reject
    · exact stateAt_owns _
  | none =>
    exact .bind requireAction_checks fun _ _ => runtimeStateAt_stateId?.mono (by simp +contextual)

theorem toState_inherits (hw : σ.world.Sane) (howned : σ.world.Ownership)
    (hx : x.ty = .string ∨ x.ty = .name) :
    Ensures σ s (toState span x) fun e => ∀ id ∈ e.stateId?, σ.Inherits id := by
  unfold toState
  rcases hx with hx | hx <;> rw [hx] <;> cases x.constant? with
  | some c => exact labelled_inherits hw howned _
  | none => exact .bind .describe fun _ _ => .bind .describe fun _ _ => .reject

/-- A conversion of an integer or a text to a state is one of these two. -/
theorem convert_state {quiet : Bool} (hx : x.ty.isInt = true ∨ x.ty = .string ∨ x.ty = .name) :
    convert span x .state quiet = toState span x := by
  unfold convert
  rcases hx with hx | hx | hx
  · obtain ⟨kind, hkind⟩ := Ty.eq_integer_of_isInt hx
    simp [hkind]
  · simp [hx]
  · simp [hx]

end Typing

open Typing

theorem Typing.exists_run {α : Type} {σ : Setting} {s : Scope} {x : Typing α} {a : α}
    (h : (x.runFrom σ s).1.toOption = some a) : ∃ s', x.runFrom σ s = (.ok a, s') :=
  ⟨_, Prod.ext (eq_ok_of_toOption h) rfl⟩

/-- A class owns the states that name it as their owner, labels lead to first frames of their
classes, a state that is found by its number belongs to the class, and one that is found under a
label with a scope to the class or one of its ancestors. -/
theorem state_ownership_consistent {w : World} (hw : w.Loaded) :
    (∀ c cls s state, w.class? c = some cls → w.state? s = some state →
      (w.ownsState c s = true ↔ state.owner = c)) ∧
    (∀ c cls label s, w.class? c = some cls → (label, s) ∈ cls.labels →
      ∃ state, w.state? s = some state ∧ state.owner = c ∧ state.frame = 0) ∧
    (∀ σ : Setting, σ.world = w → ∀ (s s' : Scope) (span : Span) (e : Expr) (id : StateId),
      e.stateId? = some id →
      (∀ m index, (Expr.stateIndex m index).settle.runFrom σ s = (.ok e, s') → σ.Owns id) ∧
      (∀ m text names tail, (Expr.stateLabel m text names tail).settle.runFrom σ s = (.ok e, s') →
        σ.Inherits id) ∧
      (∀ x quiet, (convert span x .state quiet).runFrom σ s = (.ok e, s') →
        (x.ty.isInt = true → σ.Owns id) ∧
        (x.ty = .string ∨ x.ty = .name → σ.Inherits id))) := by
  have howned := hw.ownership
  refine ⟨fun c cls s state _ hstate => howned.owner s state hstate c,
    fun c cls label s hcls => howned.labels c cls hcls label s, ?_⟩
  rintro σ rfl s s' span e id hid
  refine ⟨fun m index hrun => ?_, fun m text names tail hrun => ?_, fun x quiet hrun =>
    ⟨fun hx => ?_, fun hx => ?_⟩⟩
  · rw [Expr.settle, unlessTyped] at hrun
    split at hrun
    · cases hrun
      cases hid
    · exact (stateAt_owns index).of_run hrun id hid
  · rw [Expr.settle, unlessTyped] at hrun
    split at hrun
    · cases hrun
      cases hid
    · exact (labelled_inherits hw.sane howned text).of_run hrun id hid
  · rw [convert_state (.inl hx)] at hrun
    exact (toState_owns hx).of_run hrun id hid
  · rw [convert_state (.inr hx)] at hrun
    exact (toState_inherits hw.sane howned hx).of_run hrun id hid

/-- An imp inherits the second state of things under a label that has one name more. -/
theorem state_ownership_consistent_imp :
    let w := (World.empty.load "[[[\"Thing\",null,[],\x7b\x7d,[],[[\"Spawn\"],[\"Death\",2]]],
      [\"Imp\",\"Thing\",[],\x7b\x7d,[],[[\"See\"]]]]]").2
    let σ := Setting.ofOptions w { cls := some 1 } true
    let label := Expr.stateLabel { span := ⟨0, 0⟩ } "super::Death.Fire" [] false
    ((label.settle.runFrom σ {}).1.toOption.bind Expr.stateId? = some 1 ∧
      (w.state? 1).map State.owner = some 0) ∧
    σ.Inherits 1 ∧ w.ownsState 0 1 = true := by
  intro w σ label
  have hshape : (label.settle.runFrom σ {}).1.toOption.bind Expr.stateId? = some 1 ∧
      (w.state? 1).map State.owner = some 0 ∧ (w.class? 0).isSome := by
    decide +kernel
  have hw : w.Loaded := .load _ .empty
  clear_value w
  obtain ⟨hid, howner, hclass⟩ := hshape
  obtain ⟨e, hrun, he⟩ := Option.bind_eq_some_iff.1 hid
  obtain ⟨s', hrun⟩ := exists_run hrun
  obtain ⟨state, hstate, hthing⟩ := Option.map_eq_some_iff.1 howner
  obtain ⟨cls, hcls⟩ := Option.isSome_iff_exists.1 hclass
  obtain ⟨howns, -, hfound⟩ := state_ownership_consistent hw
  exact ⟨⟨hid, howner⟩, (hfound σ rfl {} s' ⟨0, 0⟩ e 1 he).2.1 _ _ _ _ hrun,
    (howns 0 cls 1 state hcls hstate).2 hthing⟩

end ActorScript
