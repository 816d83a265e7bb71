import Mathlib.Logic.Relation
import ActorScript.Proofs.Nodes.Worlds

/-! # Loads as steps

A load changes a world step by step, and stops before the first step that fails. A step adds
a global, a special or a sound, gives a new class its number, or fills in a class that has no
more than a name. All that holds of loaded worlds is shown for the steps.
-/

namespace ActorScript.World

variable {w w' : World} {first k : Nat} {name : String} {cls : Class} {id : Int32}
  {decl : ClassDecl} {parent : Option ClassId} {layout : ClassLayout} {P : World → Prop}

/-! ## Steps -/

/-- Classes from a number on have no more than their names. -/
def BlankFrom (w : World) (first : Nat) : Prop :=
  ∀ (k : Nat) cls, first ≤ k → w.class? k = some cls → cls = { name := cls.name }

/-- What a declaration makes of a registered class. -/
def filledClass (w : World) (id : ClassId) (decl : ClassDecl) (parent : Option ClassId)
    (layout : ClassLayout) : Class :=
  { name := w.className id
    parent
    size := alignUp layout.size 8
    members := layout.members
    labels := (addStates id decl.states w.states).2
    firstState := w.states.size
    ownedStates := (addStates id decl.states w.states).1.size - w.states.size }

/-- A world with a registered class filled in. -/
def fillIn (w : World) (id : ClassId) (decl : ClassDecl) (parent : Option ClassId)
    (layout : ClassLayout) : World :=
  { w with
    states := (addStates id decl.states w.states).1
    classes := w.classes.setIfInBounds id (w.filledClass id decl parent layout) }

/-- A step of a load that began with `first` classes. -/
inductive LoadStep (first : Nat) : World → World → Prop
  | global {w : World} {name : String} {value : Constant} :
      value.InStep → LoadStep first w (w.addGlobal name value)
  | special {w : World} (special : LineSpecial) : LoadStep first w (w.addSpecial special)
  | sound {w : World} (name : String) : LoadStep first w (w.addSound name)
  | register {w : World} {name : String} :
      w.findClass name = none → LoadStep first w { w with classes := w.classes.push { name } }
  | define {w : World} {id : Nat} {decl : ClassDecl} {parent : Option ClassId}
      {layout : ClassLayout} :
      first ≤ id → id < w.classes.size → w.BlankFrom id →
      w.findParent id decl.name decl.parent = .ok parent → w.layOut id parent decl = .ok layout →
      decl.InStep → LoadStep first w (w.fillIn id decl parent layout)

abbrev LoadSteps (first : Nat) : World → World → Prop :=
  Relation.ReflTransGen (LoadStep first)

theorem LoadSteps.foldl {α : Type} {f : World → α → World} {l : List α}
    (hf : ∀ w, ∀ a ∈ l, LoadStep first w (f w a)) : LoadSteps first w (l.foldl f w) :=
  foldl_keeps (P := LoadSteps first w) (fun v a ha hv => hv.tail (hf v a ha)) .refl

/-! ## Classes of a changed world -/

theorem class?_push :
    ({ w with classes := w.classes.push { name } } : World).class? k =
      if k = w.classes.size then some { name } else w.class? k := by
  simp [class?, Array.getElem?_push]

theorem class?_lt (h : w.class? k = some cls) : k < w.classes.size :=
  (Array.getElem?_eq_some_iff.1 h).1

theorem exists_class? (h : k < w.classes.size) : ∃ cls, w.class? k = some cls :=
  ⟨w.classes[k], Array.getElem?_eq_getElem h⟩

section FillIn

variable {id k : Nat} {decl : ClassDecl} {parent : Option ClassId} {layout : ClassLayout}

theorem class?_fillIn (hid : id < w.classes.size) :
    (w.fillIn id decl parent layout).class? k =
      if k = id then some (w.filledClass id decl parent layout) else w.class? k := by
  unfold class? fillIn
  rw [Array.getElem?_setIfInBounds]
  by_cases h : id = k
  · subst h
    simp [hid]
  · rw [if_neg h, if_neg (Ne.symm h)]

@[simp] theorem size_classes_fillIn :
    (w.fillIn id decl parent layout).classes.size = w.classes.size := by
  simp [fillIn]

end FillIn

theorem BlankFrom.push (h : w.BlankFrom first) :
    BlankFrom { w with classes := w.classes.push { name } } first := by
  intro k cls hk hcls
  rw [class?_push] at hcls
  split at hcls
  · cases hcls
    rfl
  · exact h k cls hk hcls

theorem BlankFrom.fillIn {id : Nat} (h : w.BlankFrom id) (hid : id < w.classes.size) :
    (w.fillIn id decl parent layout).BlankFrom (id + 1) := by
  intro k cls hk hcls
  rw [class?_fillIn hid, if_neg (by omega)] at hcls
  exact h k cls (by omega) hcls

theorem blankFrom_size (w : World) : w.BlankFrom w.classes.size := by
  intro k cls hk hcls
  have hlt := class?_lt hcls
  omega

/-! ## Runs -/

theorem run_bind {α β : Type} (x : Loading α) (f : α → Loading β) :
    (x >>= f).run.run w = match x.run.run w with
      | (.ok v, w') => (f v).run.run w'
      | (.error e, w') => (.error e, w') := by
  unfold ExceptT.run StateT.run
  simp only [Bind.bind, ExceptT.bind, ExceptT.mk, StateT.bind, ExceptT.bindCont]
  rcases x w with ⟨_ | _, _⟩ <;> rfl

theorem registerClass_run (name : String) :
    (registerClass name).run.run w =
      if (w.findClass name).isSome then (.error (.duplicateClass name), w)
      else (.ok (), { w with classes := w.classes.push { name } }) := by
  unfold registerClass
  rw [run_bind]
  change (if (w.findClass name).isSome = true then _ else _ : Loading Unit).run.run w = _
  split
  · rfl
  · rfl

theorem defineClass_run (id : ClassId) (decl : ClassDecl) :
    (defineClass id decl).run.run w =
      match w.findParent id decl.name decl.parent with
      | .error e => (.error e, w)
      | .ok parent =>
          match w.layOut id parent decl with
          | .error e => (.error e, w)
          | .ok layout => (.ok (), w.fillIn id decl parent layout) := by
  unfold defineClass
  rw [run_bind]
  change ((w.findParent id decl.name decl.parent : Loading _) >>= _).run.run w = _
  rw [run_bind]
  cases w.findParent id decl.name decl.parent with
  | error e => rfl
  | ok parent =>
    change ((w.layOut id parent decl : Loading _) >>= _).run.run w =
      match w.layOut id parent decl with
      | .error e => (.error e, w)
      | .ok layout => (.ok (), w.fillIn id decl parent layout)
    rw [run_bind]
    cases w.layOut id parent decl with
    | error e => rfl
    | ok layout => rfl

theorem registerClasses_steps (decls : List ClassDecl) (hblank : w.BlankFrom first)
    {r : Except EnvError Unit} (h : (decls.forM fun decl => registerClass decl.name).run.run w = (r, w')) :
    LoadSteps first w w' ∧
      (r = .ok () → w'.BlankFrom first ∧ w'.classes.size = w.classes.size + decls.length) := by
  induction decls generalizing w with
  | nil =>
    cases h
    exact ⟨.refl, fun _ => ⟨hblank, rfl⟩⟩
  | cons decl rest ih =>
    rw [List.forM_eq_forM, List.forM_cons, run_bind, registerClass_run] at h
    cases hfound : w.findClass decl.name with
    | some k =>
      simp only [hfound, Option.isSome_some, if_true] at h
      cases h
      exact ⟨.refl, nofun⟩
    | none =>
      simp only [hfound, Option.isSome_none, Bool.false_eq_true, if_false] at h
      obtain ⟨hsteps, hgood⟩ := ih hblank.push h
      refine ⟨.head (.register hfound) hsteps, fun hr => ?_⟩
      obtain ⟨hblank', hsize⟩ := hgood hr
      refine ⟨hblank', ?_⟩
      rw [hsize, Array.size_push, List.length_cons]
      omega

theorem defineClasses_steps {id : Nat} {decls : List ClassDecl} (hfirst : first ≤ id)
    (hblank : w.BlankFrom id) (hsize : id + decls.length ≤ w.classes.size)
    (hdecls : ∀ d ∈ decls, d.InStep) : LoadSteps first w ((defineClasses id decls).run.run w).2 := by
  induction decls generalizing w id with
  | nil => exact .refl
  | cons decl rest ih =>
    rw [List.length_cons] at hsize
    have hid : id < w.classes.size := by omega
    rw [defineClasses, run_bind, defineClass_run]
    cases hparent : w.findParent id decl.name decl.parent with
    | error e => exact .refl
    | ok parent =>
      dsimp only
      cases hlayout : w.layOut id parent decl with
      | error e => exact .refl
      | ok layout =>
        refine .head (.define hfirst hid hblank hparent hlayout (hdecls decl (by simp))) ?_
        refine ih (Nat.le_succ_of_le hfirst) (hblank.fillIn hid) ?_ fun d hd =>
          hdecls d (by simp [hd])
        rw [size_classes_fillIn]
        omega

theorem addSound_classes (w : World) (sound : String) :
    (w.addSound sound).classes = w.classes := by
  unfold addSound
  split <;> rfl

/-- The classes that a load is about are found behind those that it began with. -/
theorem declare_steps (w : World) {d : Declarations} (hd : d.InStep) :
    LoadSteps w.classes.size w ((declare d).run.run w).2 := by
  let w1 := d.constants.foldl (fun w p => w.addGlobal p.1 p.2) w
  let w2 := d.specials.foldl addSpecial w1
  let w3 := d.sounds.foldl addSound w2
  have hadded : LoadSteps w.classes.size w w3 :=
    ((LoadSteps.foldl fun _ p hp => .global (hd.constants p hp)).trans
      (LoadSteps.foldl fun _ special _ => .special special)).trans
      (LoadSteps.foldl fun _ sound _ => .sound sound)
  have hclasses1 : w1.classes = w.classes :=
    foldl_keeps (P := fun v : World => v.classes = w.classes) (fun _ _ _ h => h) rfl
  have hclasses2 : w2.classes = w.classes :=
    foldl_keeps (P := fun v : World => v.classes = w.classes) (fun _ _ _ h => h) hclasses1
  have hclasses : w3.classes = w.classes :=
    foldl_keeps (P := fun v : World => v.classes = w.classes)
      (fun v sound _ h => (addSound_classes v sound).trans h) hclasses2
  have hsize : w3.classes.size = w.classes.size := congrArg Array.size hclasses
  have hrun : (declare d).run.run w = (do
      d.classes.forM fun decl => registerClass decl.name
      defineClasses w3.classes.size d.classes : Loading Unit).run.run w3 := rfl
  rw [hrun, run_bind]
  rcases hregister : (d.classes.forM fun decl => registerClass decl.name).run.run w3 with ⟨r, w4⟩
  have hblank : w3.BlankFrom w.classes.size := hsize ▸ w3.blankFrom_size
  obtain ⟨hsteps, hgood⟩ := registerClasses_steps d.classes hblank hregister
  cases r with
  | error e => exact hadded.trans hsteps
  | ok =>
    obtain ⟨hblank', hsize'⟩ := hgood rfl
    refine (hadded.trans hsteps).trans ?_
    rw [hsize]
    exact defineClasses_steps (Nat.le_refl _) hblank' (by rw [hsize', hsize]) hd.classes

theorem load_steps (w : World) (text : String) :
    LoadSteps w.classes.size w (w.load text).2 := by
  unfold World.load loadText
  split
  next hparse => exact declare_steps w (Declarations.parse_inStep hparse)
  next => exact .refl

/-- What every step keeps holds after a load. -/
theorem LoadSteps.keeps (h : LoadSteps first w w')
    (hstep : ∀ v v', LoadStep first v v' → P v → P v') (hw : P w) : P w' := by
  induction h with
  | refl => exact hw
  | tail _ hlast ih => exact hstep _ _ hlast ih

theorem empty_steps_stock : LoadSteps 0 empty stock :=
  declare_steps empty stockDeclarations_inStep

/-- What holds of the empty world and is kept by every step holds of loaded worlds. -/
theorem Loaded.keeps (h : w.Loaded) (hempty : P World.empty)
    (hstep : ∀ first v v', LoadStep first v v' → P v → P v') : P w := by
  induction h with
  | empty => exact hempty
  | stock => exact empty_steps_stock.keeps (hstep 0) hempty
  | load text _ hw => exact (load_steps _ text).keeps (hstep _) hw

/-! ## Classes of loaded worlds -/

theorem LoadStep.size_le (h : LoadStep first w w') : w.classes.size ≤ w'.classes.size := by
  cases h with
  | sound name => rw [addSound_classes]
  | global | special => exact Nat.le_refl _
  | register | define => simp

/-- A class after a step was there before, has no more than a name, or has been filled in. -/
theorem LoadStep.class?_cases (h : LoadStep first w w') {k : ClassId}
    (hcls : w'.class? k = some cls) :
    w.class? k = some cls ∨ cls = { name := cls.name } ∨ ∃ decl parent layout,
      cls = w.filledClass k decl parent layout ∧
      w.findParent k decl.name decl.parent = .ok parent ∧
      w.layOut k parent decl = .ok layout ∧ decl.InStep := by
  cases h with
  | global | special => exact .inl hcls
  | sound name => exact .inl (by rwa [class?, addSound_classes] at hcls)
  | register =>
    rw [class?_push] at hcls
    split at hcls
    · cases hcls
      exact .inr (.inl rfl)
    · exact .inl hcls
  | define _ hid _ hparent hlayout hdecl =>
    rw [class?_fillIn hid] at hcls
    split at hcls
    next heq =>
      subst heq
      cases hcls
      exact .inr (.inr ⟨_, _, _, rfl, hparent, hlayout, hdecl⟩)
    · exact .inl hcls

theorem LoadStep.sane (h : LoadStep first w w') (hw : w.Sane) : w'.Sane where
  parents c p hp := by
    obtain ⟨cls, hcls, hparent⟩ := Option.bind_eq_some_iff.1 hp
    refine Nat.lt_of_lt_of_le ?_ h.size_le
    rcases h.class?_cases hcls with hold | hblank | ⟨decl, parent, layout, rfl, hfound, -⟩
    · exact hw.parents c p (Option.bind_eq_some_iff.2 ⟨cls, hold, hparent⟩)
    · rw [hblank] at hparent
      cases hparent
    · exact findParent_lt (hfound.trans (congrArg _ hparent))
  owners k cls hcls key f hf := by
    rcases h.class?_cases hcls with hold | hblank | ⟨decl, parent, layout, rfl, -, hlayout, -⟩
    · exact hw.owners k cls hold key f hf
    · rw [hblank] at hf
      cases hf
    · exact layOut_members (P := fun m => ∀ f, m = .function f → f.owner = k) hlayout (by simp)
        (by simp) (fun _ f hread _ heq => by cases heq; exact readSignature_owner hread) key _ hf f rfl

theorem LoadStep.inStep (h : LoadStep first w w') (hw : w.InStep) : w'.InStep where
  globals p hp := by
    cases h with
    | global hvalue =>
      rcases mem_putByKey hp with rfl | hp
      · exact hvalue
      · exact hw.globals _ hp
    | sound =>
      unfold addSound at hp
      split at hp <;> exact hw.globals p hp
    | special | register | define => exact hw.globals p hp
  members k cls hcls key c hc := by
    rcases h.class?_cases hcls with hold | hblank | ⟨decl, parent, layout, rfl, -, hlayout, hdecl⟩
    · exact hw.members k cls hold key c hc
    · rw [hblank] at hc
      cases hc
    · exact layOut_members (P := fun m => ∀ c, m = .const c → c.InStep) hlayout (by simp)
        (fun p hp _ heq => by cases heq; exact hdecl p hp) (by simp) key _ hc c rfl

theorem empty_sane : empty.Sane where
  parents c p h := by simp [parent?, class?, empty] at h
  owners k cls h := by simp [class?, empty] at h

/-- Members of a loaded world belong to a class, and parents are classes. -/
theorem Loaded.sane (h : w.Loaded) : w.Sane :=
  h.keeps empty_sane fun _ _ _ hstep => hstep.sane

theorem Loaded.inStep (h : w.Loaded) : w.InStep :=
  h.keeps ⟨by simp [World.empty], fun k cls hcls => by simp [class?, World.empty] at hcls⟩
    fun _ _ _ hstep => hstep.inStep

/-! ## What is kept -/

def HasSound (w : World) (id : Int32) : Prop :=
  0 < id ∧ id.toInt.toNat ≤ w.sounds.length

/-- All that a world has is found unchanged in another one. -/
structure Extends (w w' : World) : Prop where
  classes : ∀ id cls, w.class? id = some cls → w'.class? id = some cls
  classIds : ∀ name id, w.findClass name = some id → w'.findClass name = some id
  states : ∀ id state, w.state? id = some state → w'.state? id = some state
  soundIds : ∀ name, w.soundId name ≠ 0 → w'.soundId name = w.soundId name
  soundNames : ∀ id, w.HasSound id → w'.soundName id = w.soundName id

/-- Numbers and names belong together. -/
structure Distinct (w : World) : Prop where
  classes : ∀ id cls name, w.class? id = some cls →
    (w.findClass name = some id ↔ Text.sameName cls.name name = true)
  found : ∀ name id, w.findClass name = some id → ∃ cls, w.class? id = some cls
  sounds : ∀ id, w.HasSound id → w.soundId (w.soundName id) = id
  specials : w.specials.Pairwise fun a b => Text.sameName a.name b.name = false

theorem addStates_prefix (id : ClassId) (decls : List StateDecl) (states : Array State) :
    states.toList <+: (addStates id decls states).1.toList := by
  induction decls generalizing states with
  | nil => exact List.prefix_rfl
  | cons decl rest ih =>
    have hframes : states.toList <+: (states ++ framesOf id decl).toList := by simp
    exact hframes.trans (ih _)

/-- A change that keeps the first classes and adds behind the states and sounds. -/
structure Keeps (first : Nat) (w w' : World) : Prop where
  size : w.classes.size ≤ w'.classes.size
  classes : ∀ k < first, w'.class? k = w.class? k
  states : w.states.toList <+: w'.states.toList
  sounds : w.sounds <+: w'.sounds

theorem Keeps.refl (w : World) : Keeps first w w :=
  ⟨Nat.le_refl _, fun _ _ => rfl, List.prefix_rfl, List.prefix_rfl⟩

theorem Keeps.trans {w'' : World} (h : Keeps first w w') (h' : Keeps first w' w'') :
    Keeps first w w'' where
  size := Nat.le_trans h.size h'.size
  classes k hk := (h'.classes k hk).trans (h.classes k hk)
  states := h.states.trans h'.states
  sounds := h.sounds.trans h'.sounds

theorem addSound_keeps (w : World) (sound : String) : Keeps first w (w.addSound sound) := by
  unfold addSound
  split
  · exact ⟨Nat.le_refl _, fun _ _ => rfl, List.prefix_rfl, List.prefix_append _ _⟩
  · exact .refl w

theorem LoadStep.keeps (h : LoadStep first w w') (hfirst : first ≤ w.classes.size) :
    Keeps first w w' := by
  cases h with
  | global | special => exact ⟨Nat.le_refl _, fun _ _ => rfl, List.prefix_rfl, List.prefix_rfl⟩
  | sound name => exact addSound_keeps w name
  | register =>
    refine ⟨by simp, fun k hk => ?_, List.prefix_rfl, List.prefix_rfl⟩
    rw [class?_push, if_neg (by omega)]
  | define hid hlt =>
    refine ⟨by simp, fun k hk => ?_, addStates_prefix _ _ _, List.prefix_rfl⟩
    rw [class?_fillIn hlt, if_neg (by omega)]

theorem load_keeps (w : World) (text : String) : Keeps w.classes.size w (w.load text).2 := by
  refine (load_steps w text).keeps (P := Keeps w.classes.size w) (fun v v' hstep hv => ?_) (.refl w)
  exact hv.trans (hstep.keeps hv.size)

theorem soundId_eq_zero_or (w : World) (name : String) :
    w.soundId name = 0 ∨ ∃ i, w.sounds.findIdx? (Text.sameName · name) = some i ∧
      w.soundId name = Int32.ofNat (i + 1) := by
  unfold soundId
  cases w.sounds.findIdx? (Text.sameName · name) with
  | none => exact .inl rfl
  | some i => exact .inr ⟨i, rfl, rfl⟩

theorem HasSound.lt (h : w.HasSound id) : id.toInt.toNat - 1 < w.sounds.length := by
  have hpos := Int32.lt_iff_toInt_lt.1 h.1
  have hle := h.2
  rw [Int32.toInt_zero] at hpos
  omega

theorem HasSound.getElem?_eq (h : w.HasSound id) :
    w.sounds[id.toInt.toNat - 1]? = some (w.soundName id) := by
  rw [soundName, if_neg (Int32.not_le.2 h.1), List.getElem?_eq_getElem h.lt, Option.getD_some]

theorem Keeps.findClass (h : Keeps w.classes.size w w') {id : ClassId}
    (hfound : w.findClass name = some id) : w'.findClass name = some id := by
  have hsame (k : Nat) (hk : k < w.classes.size) (hk' : k < w'.classes.size) :
      w'.classes[k] = w.classes[k] := by
    simpa [class?, hk, hk'] using h.classes k hk
  obtain ⟨hid, hname, hfirst⟩ := Array.findIdx?_eq_some_iff_getElem.1 hfound
  have hid' := Nat.lt_of_lt_of_le hid h.size
  refine Array.findIdx?_eq_some_iff_getElem.2 ⟨hid', by rwa [hsame id hid], fun j hj => ?_⟩
  rw [hsame j (Nat.lt_trans hj hid)]
  exact hfirst j hj

theorem Keeps.extends (h : Keeps w.classes.size w w') : w.Extends w' where
  classes id cls hcls := (h.classes id (class?_lt hcls)).trans hcls
  classIds _ _ := h.findClass
  states id state hstate := by
    obtain ⟨added, hadded⟩ := h.states
    rw [state?, ← Array.getElem?_toList] at hstate ⊢
    rw [← hadded]
    rwa [List.getElem?_append_left (List.getElem?_eq_some_iff.1 hstate).1]
  soundIds name hname := by
    obtain ⟨added, hadded⟩ := h.sounds
    rcases w.soundId_eq_zero_or name with hzero | ⟨i, hfound, -⟩
    · exact absurd hzero hname
    · simp [soundId, ← hadded, List.findIdx?_append, hfound]
  soundNames id hid := by
    obtain ⟨added, hadded⟩ := h.sounds
    have hid' : w'.HasSound id := ⟨hid.1, Nat.le_trans hid.2 (by simp [← hadded])⟩
    have hname := hid'.getElem?_eq
    rw [← hadded, List.getElem?_append_left hid.lt, hid.getElem?_eq] at hname
    exact (Option.some.inj hname).symm

/-! ## What is distinct -/

def foldedNames (w : World) : List String :=
  w.classes.toList.map fun cls => Text.fold cls.name

/-- A sound has the number of its position, unless that of an earlier one of its name has wrapped
around. -/
def SoundsDiffer (w : World) : Prop :=
  ∀ k sound, w.sounds[k]? = some sound →
    w.soundId sound = Int32.ofNat (k + 1) ∨ w.soundId sound = 0

def SpecialsDiffer (w : World) : Prop :=
  w.specials.Pairwise fun a b => Text.sameName a.name b.name = false

theorem foldedNames_fillIn {id : Nat} (hid : id < w.classes.size) :
    (w.fillIn id decl parent layout).foldedNames = w.foldedNames := by
  have hname : w.className id = w.classes[id].name := by
    simp [className, class?, hid]
  apply List.ext_getElem?
  intro k
  simp only [foldedNames, fillIn, List.getElem?_map, Array.getElem?_toList,
    Array.getElem?_setIfInBounds]
  by_cases h : id = k
  · subst h
    simp [hid, filledClass, hname]
  · simp [h]

theorem fold_notMem_foldedNames (h : w.findClass name = none) : Text.fold name ∉ w.foldedNames := by
  intro hmem
  obtain ⟨cls, hcls, hfold⟩ := List.mem_map.1 hmem
  have hnone := Array.findIdx?_eq_none_iff.1 h cls (Array.mem_toList_iff.1 hcls)
  simp [Text.sameName, hfold] at hnone

theorem LoadStep.foldedNames_nodup (h : LoadStep first w w') (hw : w.foldedNames.Nodup) :
    w'.foldedNames.Nodup := by
  cases h with
  | global | special => exact hw
  | sound name =>
    rw [foldedNames, addSound_classes]
    exact hw
  | register hnone =>
    have hfresh := fold_notMem_foldedNames hnone
    simp only [foldedNames, Array.toList_push, List.map_append, List.map_cons, List.map_nil]
    exact List.nodup_append'.2 ⟨hw, List.nodup_singleton _, by simpa [foldedNames] using hfresh⟩
  | define _ hlt => rwa [foldedNames_fillIn hlt]

/-- The number of a name that is among the sounds stays what it is. -/
theorem soundId_append {sounds added : List String} {i : Nat} (hw : w.sounds = sounds)
    (hw' : w'.sounds = sounds ++ added) (hfound : sounds.findIdx? (Text.sameName · name) = some i) :
    w'.soundId name = w.soundId name := by
  simp [soundId, hw, hw', List.findIdx?_append, hfound]

theorem exists_findIdx?_sound {sound : String} (h : w.sounds[k]? = some sound) :
    ∃ i ≤ k, w.sounds.findIdx? (Text.sameName · sound) = some i := by
  obtain ⟨hk, rfl⟩ := List.getElem?_eq_some_iff.1 h
  cases hfound : w.sounds.findIdx? (Text.sameName · w.sounds[k]) with
  | none =>
    have hnone := List.findIdx?_eq_none_iff.1 hfound _ (List.getElem_mem hk)
    simp [Text.sameName] at hnone
  | some i =>
    obtain ⟨hi, -, hfirst⟩ := List.findIdx?_eq_some_iff_getElem.1 hfound
    refine ⟨i, Nat.le_of_not_lt fun hki => ?_, rfl⟩
    have hnot := hfirst k hki
    simp [Text.sameName] at hnot

theorem SoundsDiffer.addSound (hw : w.SoundsDiffer) (name : String) :
    (w.addSound name).SoundsDiffer := by
  unfold World.addSound
  split
  next hnew =>
    intro k sound hk
    by_cases hlt : k < w.sounds.length
    · rw [List.getElem?_append_left hlt] at hk
      obtain ⟨i, -, hfound⟩ := exists_findIdx?_sound hk
      rw [soundId_append rfl rfl hfound]
      exact hw k sound hk
    · have hlast := (List.getElem?_eq_some_iff.1 hk).1
      rw [List.length_append, List.length_singleton] at hlast
      obtain rfl : k = w.sounds.length := by omega
      obtain rfl : name = sound := by simpa using hk
      cases hfound : w.sounds.findIdx? (Text.sameName · name) with
      | some i =>
        rw [soundId_append rfl rfl hfound]
        exact .inr (by simpa using hnew)
      | none =>
        have hsame : Text.sameName name name = true := by simp [Text.sameName]
        exact .inl (by simp [soundId, List.findIdx?_append, hfound, hsame])
  next => exact hw

theorem LoadStep.soundsDiffer (h : LoadStep first w w') (hw : w.SoundsDiffer) :
    w'.SoundsDiffer := by
  cases h with
  | global | special | register | define => exact hw
  | sound name => exact hw.addSound name

theorem LoadStep.specialsDiffer (h : LoadStep first w w') (hw : w.SpecialsDiffer) :
    w'.SpecialsDiffer := by
  cases h with
  | global | register | define => exact hw
  | sound name =>
    unfold addSound
    split <;> exact hw
  | special special =>
    refine List.pairwise_append.2 ⟨hw.sublist List.filter_sublist, List.pairwise_singleton _ _, ?_⟩
    intro a ha b hb
    obtain rfl := List.mem_singleton.1 hb
    simpa using (List.mem_filter.1 ha).2

/-- A class is found under every spelling of its name, and under no other one. -/
theorem findClass_iff (hw : w.foldedNames.Nodup) {id : ClassId} (hcls : w.class? id = some cls) :
    w.findClass name = some id ↔ Text.sameName cls.name name = true := by
  obtain ⟨hid, rfl⟩ := Array.getElem?_eq_some_iff.1 hcls
  rw [findClass, Array.findIdx?_eq_some_iff_getElem]
  constructor
  · rintro ⟨_, hsame, -⟩
    exact hsame
  · refine fun hsame => ⟨hid, hsame, fun j hj hjsame => ?_⟩
    have hfold : Text.fold w.classes[j].name = Text.fold w.classes[id].name := by
      simp only [Text.sameName, beq_iff_eq] at hsame hjsame
      exact hjsame.trans hsame.symm
    have hlength : w.foldedNames.length = w.classes.size := by simp [foldedNames]
    have hlt : j < w.foldedNames.length := by omega
    have hlt' : id < w.foldedNames.length := hlength ▸ hid
    have hentry : w.foldedNames[j] = w.foldedNames[id] := by simpa [foldedNames] using hfold
    have heq := hw.getElem_inj_iff.1 hentry
    omega

theorem SoundsDiffer.soundId_soundName (hw : w.SoundsDiffer) (hid : w.HasSound id) :
    w.soundId (w.soundName id) = id := by
  have hname := hid.getElem?_eq
  have hpos := Int32.lt_iff_toInt_lt.1 hid.1
  have hbound := id.toInt_lt
  rw [Int32.toInt_zero] at hpos
  rcases hw _ _ hname with h | h
  · rw [h, Nat.sub_add_cancel (by omega), ← Int32.ofInt_eq_ofNat, Int.toNat_of_nonneg (by omega),
      Int32.ofInt_toInt]
  · -- The first sound of the name comes no later, so its number has not wrapped around either.
    obtain ⟨i, hi, hfound⟩ := exists_findIdx?_sound hname
    have hzero : (Int32.ofNat (i + 1)).toInt = 0 := by
      rw [soundId, hfound] at h
      rw [show Int32.ofNat (i + 1) = 0 from h, Int32.toInt_zero]
    rw [Int32.toInt_ofNat_of_lt (by omega)] at hzero
    omega

theorem Loaded.distinct (h : w.Loaded) : w.Distinct where
  classes id cls name hcls := by
    refine findClass_iff ?_ hcls
    exact h.keeps (P := fun w => w.foldedNames.Nodup) List.nodup_nil
      fun _ _ _ hstep hw => hstep.foldedNames_nodup hw
  found name id hfound := exists_class? (findClass_lt hfound)
  sounds id hid := by
    refine SoundsDiffer.soundId_soundName ?_ hid
    exact h.keeps (fun k sound hk => by simp [World.empty] at hk)
      fun _ _ _ hstep hw => hstep.soundsDiffer hw
  specials := h.keeps (P := SpecialsDiffer) .nil fun _ _ _ hstep hw => hstep.specialsDiffer hw

/-- A load adds to a world, whether it succeeds or fails halfway: what was there is unchanged, and
numbers and names belong together as before. -/
theorem load_additive (hw : w.Loaded) (text : String) :
    w.Extends (w.load text).2 ∧ (w.load text).2.Distinct :=
  ⟨(load_keeps w text).extends, (Loaded.load text hw).distinct⟩

/-- A load that gives a class its number, and stops at the parent of the class. -/
theorem load_additive_halfway :
    let w := (empty.load "[[[\"Imp\"]]]").2
    let w' := (w.load "[[[\"Ghost\",\"Spirit\"]]]").2
    ((w.load "[[[\"Ghost\",\"Spirit\"]]]").1.toOption = none ∧ w.findClass "ghost" = none ∧
      w'.findClass "imp" = some 0 ∧ w'.findClass "ghost" = some 1) ∧
    w.Extends w' ∧ w'.Distinct :=
  ⟨by decide +kernel, load_additive (.load _ .empty) _⟩

end ActorScript.World
