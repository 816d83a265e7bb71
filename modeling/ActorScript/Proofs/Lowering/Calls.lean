import ActorScript.Proofs.Lowering.Storage

/-! # Code of constants and calls

Parameters are passed one after the other and leave no register in use. The value of a call is
then in a register of its own.
-/

namespace ActorScript

variable {g : Footprint} {float : Bool} {op : Extremum} {jumps finishes : List Nat} {count : Nat}
  {r : Register} {rng : String} {p : Place}

open Lowering

/-- Lowering adds code, and no register is in use afterwards that was not before. -/
def Adds {α : Type} (t : Target) (c : Context) (x : Lowering α) (e : Effect) : Prop :=
  ∀ d a d', Sound c d → Yields t x d a d' → Work d ∅ e d'

namespace Adds

variable {α β : Type} {t : Target} {c : Context} {e e' : Effect} {x : Lowering α}

theorem pure (a : α) : Adds t c (Pure.pure a) {} := by
  rintro d b d' - h
  obtain ⟨-, rfl⟩ := yields_pure.1 h
  exact Work.refl d'

theorem bind [Safe x] {f : α → Lowering β} [∀ a, Safe (f a)] (hx : Adds t c x e)
    (hf : ∀ a, Adds t c (f a) e') : Adds t c (x >>= f) (e ++ e') := by
  intro d b d' hd h
  obtain ⟨a, d1, hx', hf'⟩ := yields_bind.1 h
  have hw := hx d a d1 hd hx'
  exact (hw.trans (hf a d1 b d' (hd.work hw) hf')).cast (Set.union_empty _) id rfl rfl

theorem lowers [Safe x] {f : α → Lowering Place} [∀ a, Safe (f a)] (hx : Adds t c x e)
    (hf : ∀ a, Lowers t c (f a) g) : Lowers t c (x >>= f) { g with effect := e ++ g.effect } := by
  intro d p d' hd h
  obtain ⟨a, d1, hx', hf'⟩ := yields_bind.1 h
  have hw := hx d a d1 hd hx'
  have hl := hf a d1 p d' (hd.work hw) hf'
  exact hl.rebase hw ((hw.trans hl.toWork).cast (Set.empty_union _) id rfl rfl) (.refl _)
    List.prefix_rfl

end Adds

/-! ## Constants -/

section Constants

variable {t : Target} {c : Context}

theorem constant_lowers {value : Constant} {b : Bank} (hb : value.ty.bank? = some b) :
    Lowers t c (Lowering.constant value) { bank? := some b, isPooled := true, effect := {} } := by
  rintro d p d' - h
  cases b <;> simp only [Lowering.constant, hb] at h
  case int =>
    split at h
    · simp only [yields_steps] at h
      obtain ⟨i, d1, hname, rfl, rfl⟩ := h
      obtain ⟨names, v, rfl, rfl⟩ := yields_nameConstant hname
      exact Leaves.ofConstant (((Work.refl d).withNames names).store (.int v))
        ((d.withNames names).indexOf_lt (.int v))
    · simp only [yields_steps, yields_intConstant] at h
      obtain ⟨rfl, rfl⟩ := h
      exact Leaves.ofEntry d (.int _)
  case float =>
    simp only [yields_steps, yields_floatConstant] at h
    obtain ⟨rfl, rfl⟩ := h
    exact Leaves.ofEntry d (.float _)
  case string =>
    simp only [yields_steps, yields_stringConstant] at h
    obtain ⟨rfl, rfl⟩ := h
    exact Leaves.ofEntry d (.string _)
  case pointer =>
    simp only [yields_read_bind, yields_pooledAddress] at h
    obtain ⟨rfl, rfl⟩ := h
    exact Leaves.ofEntry d (.address _)

end Constants

/-! ## Parameters -/

section Parameters

variable {t : Target} {c : Context} {f : Footprint} {b : Bank} {d d1 d' : Draft} {p : Place}
  {u : Unit}

theorem Place.tagged_tag (hb : p.bank? = some b) : Slot.tagged p.tag = .value b p.isConstant := by
  cases b <;> cases hc : p.isConstant <;> simp [Place.tag, hb, hc, Bank.code, Slot.tagged]

theorem Leaves.param (h : Leaves f d p d1) (hb : f.bank? = some b)
    (hy : Yields t (Lowering.param p) d1 u d') : Work d ∅ f.effect d' := by
  simp only [Lowering.param, yields_steps] at hy
  obtain ⟨-, -, rfl⟩ := hy
  have hpb := h.bank.trans hb
  have hw := h.toWork.emit (i := .abx .param (.imm p.tag) p.operand) ?_
    (by simpa using h.operand_within) (by simp [Instr.target?]) rfl
  · exact (hw.drop h.fresh).cast (by ext; simp) id rfl rfl
  · cases hc : p.isConstant <;>
      simp [Instr.fits, Place.tagged_tag hpb, Place.operand, hpb, hc]

theorem param_adds {x : Lowering Place} [Safe x] (hx : Lowers t c x f) (hb : f.bank? = some b) :
    Adds t c (x >>= Lowering.param) f.effect := by
  intro d u d' hd h
  obtain ⟨p, d1, hx', hp⟩ := yields_bind.1 h
  exact (hx d p d1 hd hx').param hb hp

theorem pooledAddress_lowers (v : Pooled) : Lowers t c (pooledAddress v)
    { bank? := some .pointer, isPooled := true, effect := {} } := by
  rintro d p d' - h
  obtain ⟨rfl, rfl⟩ := yields_pooledAddress.1 h
  exact Leaves.ofEntry d (.address v)

theorem paramInt_adds (v : Int32) : Adds t c (paramInt v) {} := by
  intro d u d' hd h
  unfold paramInt at h
  split at h
  · obtain ⟨-, rfl⟩ := yields_emitSigned.1 h
    exact (Work.refl d).emit rfl (by simp) (by simp [Instr.target?]) rfl
  · simp only [yields_bind, yields_intConstant] at h
    obtain ⟨_, _, ⟨rfl, rfl⟩, hp⟩ := h
    exact (Leaves.ofEntry d (.int v)).param rfl hp

theorem nameIndex_adds (name : String) : Adds t c (liftM (Assembly.nameIndex name)) {} := by
  rintro d i d' - h
  obtain ⟨names, rfl⟩ := yields_nameIndex h
  exact (Work.refl d).withNames names

theorem generator_adds (name : String) : Adds t c (generator name) {} :=
  param_adds (pooledAddress_lowers _) rfl

theorem param_fixed {n : Nat} (h : Yields t (Lowering.param (.fixed (some .pointer) n)) d u d') :
    Work d ∅ {} d' := by
  simp only [Lowering.param, yields_steps] at h
  obtain ⟨-, -, rfl⟩ := h
  exact (Work.refl d).emit rfl (by simp) (by simp [Instr.target?]) rfl

theorem selfPlace_lowers (hk : t.kind = c.kind) (hstatic : c.kind ≠ .static) :
    Lowers t c selfPlace { bank? := some .pointer, isSelf := true, effect := {} } := by
  rintro d p d' hd h
  simp only [selfPlace, yields_read_bind, hk, yields_pure] at h
  obtain ⟨rfl, rfl⟩ := h
  exact {
    toWork := by
      rw [Place.owned_of_fixed rfl]
      exact Work.refl d'
    bank := rfl
    void := by simp
    pooled := rfl
    plain := ⟨rfl, rfl⟩
    index := by simp [Place.fixed]
    holder := by simp
    self := fun _ => rfl
    own := by simp
    filled := by simp }

theorem selfParam_adds (hk : t.kind = c.kind) : Adds t c (selfPlace >>= Lowering.param) {} := by
  by_cases hstatic : c.kind = .static
  · intro d u d' hd h
    obtain ⟨p, d1, hself, hp⟩ := yields_bind.1 h
    simp only [selfPlace, yields_read_bind, hk, hstatic, yields_pooledAddress] at hself
    obtain ⟨rfl, rfl⟩ := hself
    exact (Leaves.ofEntry d (.address .null)).param rfl hp
  · exact param_adds (selfPlace_lowers hk hstatic) rfl

theorem callerParams_adds : Adds t c (callerPlaces >>= fun places => places.forM param) {} := by
  intro d u d' hd h
  simp only [callerPlaces, bind_assoc, yields_read_bind] at h
  split at h
  · simp only [pure_bind, List.forM_eq_forM, List.forM_cons, List.forM_nil, yields_steps] at h
    obtain ⟨_, d1, h1, _, d2, h2, -, rfl⟩ := h
    exact ((param_fixed h1).trans (param_fixed h2)).cast (Set.union_empty _) id rfl rfl
  · simp only [bind_assoc, pure_bind, List.forM_eq_forM, List.forM_cons, List.forM_nil,
    yields_steps] at h
    obtain ⟨_, d1, h1, _, d2, h2, -, rfl⟩ := h
    have hnull := d.indexOf_lt (.address .null)
    have hw1 := (Leaves.ofConstant (Work.refl _) hnull).param rfl h1
    have hw2 := (Leaves.ofConstant (Work.refl _) (hnull.trans_le (hw1.pools.size_le _))).param rfl h2
    have hw := (((Work.refl d).store (.address .null)).trans hw1).trans hw2
    exact hw.cast (by simp) id rfl rfl

variable {object : Option (Lowering Place)}

theorem implicitParams_adds (kind : FunctionKind) {e : Effect}
    (hsafe : ∀ x ∈ object, Safe x)
    (hobject : Adds t c (object.getD selfPlace >>= Lowering.param) e) :
    Adds t c (implicitParams kind object) (if kind = .static then {} else e) := by
  have : Safe (object.getD selfPlace) := by
    cases object with
    | none => exact inferInstanceAs (Safe selfPlace)
    | some x => exact hsafe x rfl
  cases kind with
  | static => exact Adds.pure ()
  | method => exact hobject
  | action =>
    have hw := hobject.bind fun _ => callerParams_adds (t := t) (c := c)
    intro d u d' hd h
    have := hw d u d' hd (by simpa [implicitParams] using h)
    exact this.cast rfl (by simp) (by simp) (by simp)

/-! ## Results -/

theorem result_lowers (bank? : Option Bank) :
    Lowers t c (result bank?) { bank? := bank?, effect := {} } := by
  rintro d p d' - h
  simp only [result, yields_steps, yields_alloc] at h
  obtain ⟨_, _, ⟨b, n, rfl, offered, rfl, rfl⟩, -, rfl, rfl⟩ := h
  have htag : Slot.tagged (Place.tag (.fresh b n)) = .register b :=
    Place.tagged_tag rfl
  have hw := ((Work.refl d).take offered).emit
    (i := .abx .result (.imm (Place.tag (.fresh b n))) (.reg (some b) n))
    (by simp [Instr.fits, htag]) (by simp) (by simp [Instr.target?, htag]) rfl
  exact Leaves.ofFresh (hw.cast (Set.empty_union _) id rfl rfl)
    (((Work.refl d).take offered).fills_push (by simp [Instr.target?, htag]))

/-- Lowering adds code that hands the value to the caller. -/
def Ends (t : Target) (c : Context) (x : Lowering Place) (e : Effect) : Prop :=
  ∀ d p d', Sound c d → Yields t x d p d' → p = .final ∧ Work d ∅ e d' ∧ Stops d.code d'.code

/-- Code of a call, which may be a tail call. -/
structure Calls (t : Target) (c : Context) (x : Bool → Lowering Place) (f : Footprint) : Prop where
  lowers : Lowers t c (x false) f
  ends : Ends t c (x true) f.effect

theorem Adds.calls {α : Type} {x : Lowering α} [Safe x] {f : Bool → Lowering Place}
    [∀ tail, Safe (f tail)] {e : Effect} (hx : Adds t c x e) (hf : Calls t c f g) :
    Calls t c (fun tail => x >>= fun _ => f tail) { g with effect := e ++ g.effect } where
  lowers := hx.lowers fun _ => hf.lowers
  ends := by
    intro d p d' hd h
    obtain ⟨a, d1, hx', hf'⟩ := yields_bind.1 h
    have hw := hx d a d1 hd hx'
    obtain ⟨rfl, hw', hstops⟩ := hf.ends d1 p d' (hd.work hw) hf'
    exact ⟨rfl, (hw.trans hw').cast (Set.union_empty _) id rfl rfl, hstops.behind hw.closes⟩

theorem Calls.read {f : Target → Bool → Lowering Place} (h : Calls t c (f t) g) :
    Calls t c (fun tail => MonadReader.read >>= fun t' => f t' tail) g where
  lowers d p d' hd hy := h.lowers d p d' hd (yields_read_bind.1 hy)
  ends d p d' hd hy := h.ends d p d' hd (yields_read_bind.1 hy)

theorem Work.callee {op : Op} (hop : op = .callK ∨ op = .tailK) (d : Draft) (callee : Pooled)
    (count n : Nat) : Work d ∅ {} ((d.store (.address callee)).push (.abc op
      (.pool (some .pointer) (d.indexOf (.address callee))) (.imm count) (.imm n))) := by
  rcases hop with rfl | rfl <;> exact ((Work.refl d).store (.address callee)).emit rfl
    (by simpa using d.indexOf_lt (.address callee)) (by simp [Instr.target?]) rfl

theorem call_calls (callee : Pooled) (count : Nat) (results : List (Option Bank)) :
    Calls t c (call callee count results)
      { bank? := results.headD none, isVoid := results.isEmpty, effect := {} } where
  lowers := by
    intro d p d' hd h
    have hcall := Work.callee (.inl rfl) d callee (count % 65536)
    cases results with
    | nil =>
      simp only [call, Bool.false_eq_true, if_false, yields_steps] at h
      obtain ⟨-, rfl, rfl⟩ := h
      exact Leaves.ofOwned ((hcall _).cast (Place.owned_of_bankless rfl).symm id rfl rfl) rfl
        (fun _ => rfl) rfl rfl ⟨rfl, rfl⟩ (by simp)
    | cons bank? rest =>
      simp only [call, Bool.false_eq_true, if_false, yields_steps] at h
      obtain ⟨-, h⟩ := h
      have hl := result_lowers bank? _ p d' (hd.work (hcall _)) h
      exact hl.rebase (hcall _) (((hcall _).trans hl.toWork).cast (Set.empty_union _) id rfl rfl)
        (.refl _) List.prefix_rfl
  ends := by
    rintro d p d' - h
    simp only [call, if_true, yields_steps] at h
    obtain ⟨-, rfl, rfl⟩ := h
    refine ⟨rfl, Work.callee (.inr rfl) .., ?_⟩
    rw [Draft.code_push]
    exact .push id rfl

theorem callService_calls (service : Service) (count : Nat) (bank : Bank) :
    Calls t c (callService service count bank) { bank? := some bank, effect := {} } :=
  call_calls (.native service) count [some bank]

end Parameters

/-! ## Arguments -/

section Arguments

variable {t : Target} {c : Context} {args : List Expr} {bank : Bank}

/-- Effect of the code of expressions, one after the other. -/
def Expr.effectOf (args : List Expr) : Effect :=
  ⟨true, Expr.writesAll args, Expr.clashesAny args⟩

theorem Expr.effectOf_cons (e : Expr) (he : e.ty.bank?.isSome = true) (rest : List Expr) :
    effectOf (e :: rest) = (e.footprint c).effect ++ effectOf rest := by
  change _ = Effect.mk (e.ty.bank?.isSome && true) _ _
  simp [effectOf, Expr.writesAll, Expr.clashesAny, he, Expr.footprint]

/-- An expression that can be lowered at all has a value. -/
def Expr.Valued (t : Target) (c : Context) (e : Expr) : Prop :=
  ∀ d p d', Sound c d → Yields t e.lower d p d' → e.ty.bank?.isSome = true

theorem Expr.Valued.of_bank {e : Expr} {b : Bank} (h : e.ty.bank? = some b) : e.Valued t c :=
  fun _ _ _ _ _ => by simp [h]

theorem params_adds (h : ∀ e ∈ args, Lowers t c e.lower (e.footprint c))
    (hvalued : ∀ e ∈ args, e.Valued t c) :
    Adds t c (params (lowerAll args)) (Expr.effectOf args) := by
  induction args with
  | nil => exact Adds.pure PUnit.unit
  | cons e rest ih =>
    intro d u d' hd hy
    change Yields t ((e.lower >>= Lowering.param) >>= fun _ => params (lowerAll rest)) d u d' at hy
    obtain ⟨he, h⟩ := List.forall_mem_cons.1 h
    obtain ⟨hfirst, hvalued⟩ := List.forall_mem_cons.1 hvalued
    have hbank : e.ty.bank?.isSome = true := by
      rw [bind_assoc] at hy
      obtain ⟨p, d1, he, -⟩ := yields_bind.1 hy
      exact hfirst d p d1 hd he
    obtain ⟨b, hb⟩ := Option.isSome_iff_exists.1 hbank
    rw [Expr.effectOf_cons e hbank]
    exact (param_adds he hb).bind (fun _ => ih h hvalued) d u d' hd hy

theorem invoke_calls (hk : t.kind = c.kind) {object : Option Expr}
    (hobject : ∀ e ∈ object, Lowers t c e.lower (e.footprint c))
    (hpointer : ∀ e ∈ object, e.ty.bank? = some .pointer)
    (h : ∀ e ∈ args, Lowers t c e.lower (e.footprint c))
    (hvalued : ∀ e ∈ args, e.Valued t c) (m : Mark) (function : Signature) (tail : Bool) :
    Calls t c (invoke function (lowerOption object) (lowerAll args))
      { bank? := (function.returns.headD .void).bank?
        isVoid := function.returns.isEmpty
        effect := ⟨true, (Expr.invoke m object function args tail).writes,
          (Expr.invoke m object function args tail).clashes⟩ } := by
  have hself : Adds t c ((lowerOption object).getD selfPlace >>= Lowering.param)
      ⟨true, Expr.writesOption object, Expr.clashesOption object⟩ := by
    cases object with
    | none => exact selfParam_adds hk
    | some e =>
      have hw := param_adds (hobject e rfl) (hpointer e rfl)
      rwa [Expr.footprint, hpointer e rfl] at hw
  have hcalls := (implicitParams_adds function.kind (safe_lowerOption object) hself).calls
    ((params_adds h hvalued).calls (Calls.read (f := fun t' => call
      (.function (t'.world.className function.owner ++ "." ++ function.name))
      (function.kind.implicitArgs + (lowerAll args).length) (function.returns.map Ty.bank?))
      (call_calls _ _ _)))
  have hbank : (function.returns.map Ty.bank?).headD none =
      (function.returns.headD .void).bank? := by
    cases function.returns <;> rfl
  have heffect : (if function.kind = .static then {}
      else ⟨true, Expr.writesOption object, Expr.clashesOption object⟩) ++ (Expr.effectOf args ++ {}) =
      Effect.mk true (Expr.invoke m object function args tail).writes
        (Expr.invoke m object function args tail).clashes := by
    by_cases hstatic : function.kind = .static <;>
      simp [hstatic, Expr.effectOf, Effect.mk_append_mk, Expr.writes, Expr.clashes]
  rw [hbank, List.isEmpty_map] at hcalls
  exact heffect ▸ hcalls

theorem specialParam_adds {e : Expr} (he : Lowers t c e.lower (e.footprint c))
    (hint : e.ty.bank? = some .int) (named : Bool) :
    Adds t c (specialParam named e.constant? e.lower) (e.footprint c).effect := by
  cases hconst : e.constant? with
  | none => exact param_adds he hint
  | some v =>
    have heffect : (e.footprint c).effect = {} := by
      cases e <;> simp [Expr.constant?] at hconst
      simp [Expr.footprint, hint, Expr.writes, Expr.clashes]
    rw [heffect]
    unfold specialParam
    split
    next known w hw =>
      cases hw
      split
      · simpa using (nameIndex_adds _).bind fun i => paramInt_adds (t := t) (c := c) (-Int32.ofNat i)
      · exact paramInt_adds _
    next hnone => cases hnone

theorem specialParams_adds (h : ∀ e ∈ args, Lowers t c e.lower (e.footprint c))
    (hint : ∀ e ∈ args, e.ty.bank? = some .int) (named : Bool) :
    Adds t c (specialParams named ((args.map Expr.constant?).zip (lowerAll args)))
      (Expr.effectOf args) := by
  induction args generalizing named with
  | nil => exact Adds.pure ()
  | cons e rest ih =>
    obtain ⟨he, h⟩ := List.forall_mem_cons.1 h
    obtain ⟨hfirst, hint⟩ := List.forall_mem_cons.1 hint
    rw [Expr.effectOf_cons e (by simp [hfirst])]
    change Adds t c (specialParam named e.constant? e.lower >>= fun _ =>
      specialParams false ((rest.map Expr.constant?).zip (lowerAll rest))) _
    exact (specialParam_adds he hfirst named).bind fun _ => ih h hint false

theorem special_calls (hk : t.kind = c.kind) (h : ∀ e ∈ args, Lowers t c e.lower (e.footprint c))
    (hint : ∀ e ∈ args, e.ty.bank? = some .int) (number : Int32) :
    Calls t c (Lowering.special number ((args.map Expr.constant?).zip (lowerAll args)))
      { bank? := some .int, effect := Expr.effectOf args } := by
  have hcalls := (paramInt_adds (if number < 0 then -number else number)).calls
    ((selfParam_adds hk).calls ((specialParams_adds h hint (number < 0)).calls
      (callService_calls .callLineSpecial
        (2 + ((args.map Expr.constant?).zip (lowerAll args)).length) .int)))
  simp only [bind_assoc, Effect.none_append, Effect.append_none] at hcalls
  exact hcalls

variable {e e' : Expr}

theorem random_calls (he : Lowers t c e.lower (e.footprint c))
    (he' : Lowers t c e'.lower (e'.footprint c)) (hbank : bank = if float then .float else .int)
    (hb : e.ty.bank? = some bank) (hb' : e'.ty.bank? = some bank) (rng : String) :
    Calls t c (Lowering.random float rng e.lower e'.lower)
      { bank? := some bank, effect := Expr.effectOf [e, e'] } := by
  have hparams : Adds t c (params (lowerAll [e, e'])) (Expr.effectOf [e, e']) :=
    params_adds (by simpa using ⟨he, he'⟩)
    (by simpa using ⟨.of_bank hb, .of_bank hb'⟩)
  have hcalls := fun service =>
    (generator_adds rng).calls (hparams.calls (callService_calls service 3 bank))
  simp only [Effect.none_append, Effect.append_none, lowerAll] at hcalls
  subst hbank
  cases float
  · exact hcalls .random
  · exact hcalls .frandom

theorem random2_calls (he : Lowers t c e.lower (e.footprint c)) (hb : e.ty.bank? = some .int)
    (rng : String) :
    Calls t c (Lowering.random2 rng e.lower)
      { bank? := some .int, effect := Expr.effectOf [e] } := by
  have hparams : Adds t c (params (lowerAll [e])) (Expr.effectOf [e]) :=
    params_adds (by simpa using he) (by simpa using .of_bank hb)
  have hcalls := (generator_adds rng).calls (hparams.calls (callService_calls .random2 2 .int))
  simp only [Effect.none_append, Effect.append_none, lowerAll] at hcalls
  exact hcalls

theorem runtimeState_calls (he : Lowers t c e.lower (e.footprint c))
    (hb : e.ty.bank? = some .int) :
    Calls t c (Lowering.runtimeState e.lower)
      { bank? := some .pointer, effect := (e.footprint c).effect } := by
  have hcaller : ∀ n, Adds t c (Lowering.param (.fixed (some .pointer) n)) {} :=
    fun n d u d' _ h => param_fixed h
  have hcalls := (hcaller 1).calls ((hcaller 2).calls ((param_adds he hb).calls
    (callService_calls .handleRuntimeState 3 .pointer)))
  simp only [bind_assoc, Effect.none_append, Effect.append_none] at hcalls
  exact hcalls

theorem nameParams_adds (names : List String) : Adds t c (nameParams names) {} := by
  induction names with
  | nil => exact Adds.pure PUnit.unit
  | cons name rest ih =>
    have h := ((nameIndex_adds name).bind fun i => paramInt_adds (Int32.ofNat i)).bind fun _ => ih
    simp only [Effect.append_none] at h
    exact h

theorem stateOwnerParam_adds (hk : t.kind = c.kind) :
    Adds t c (stateOwner >>= Lowering.param) {} := by
  intro d u d' hd h
  simp only [stateOwner, bind_assoc, yields_read_bind] at h
  split at h
  · exact param_fixed (by simpa using h)
  · exact selfParam_adds hk d u d' hd h

theorem stateLabel_calls (hk : t.kind = c.kind) (names : List String) :
    Calls t c (Lowering.stateLabel names) { bank? := some .pointer, effect := {} } := by
  have hcalls := (stateOwnerParam_adds hk).calls ((nameParams_adds names).calls
    (callService_calls (if names.length = 1 then .findSingleNameState else .findMultiNameState)
      (names.length + 1) .pointer))
  simp only [bind_assoc, Effect.append_none] at hcalls
  exact hcalls

theorem classCast_lowers (he : Lowers t c e.lower (e.footprint c)) (hb : e.ty.bank? = some bank)
    (target : ClassId) :
    Lowers t c (Lowering.classCast target e.lower)
      { bank? := some .pointer, effect := (e.footprint c).effect } := by
  have hcalls := ((param_adds he hb).calls (Calls.read (f := fun t' tail => do
    let p ← pooledAddress (.cls (t'.world.className target))
    Lowering.param p
    callService .nameToClass 2 .pointer tail) (by
      have := (param_adds (pooledAddress_lowers (.cls (t.world.className target))) rfl).calls
        (callService_calls (t := t) (c := c) .nameToClass 2 .pointer)
      simp only [bind_assoc, Effect.append_none] at this
      exact this)))
  simp only [bind_assoc, Effect.append_none] at hcalls
  exact hcalls.lowers

end Arguments

/-! ## Functions of numbers -/

section Numbers

variable {t : Target} {c : Context} {x y : Lowering Place} [Safe x] [Safe y] {f g : Footprint}
  {b : Bank}

theorem floatFn_lowers (hx : Lowers t c x f) (hf : f.bank? = some .float) (fn : FloatFn) :
    Lowers t c (Lowering.floatFn fn x) { bank? := some .float, effect := f.effect } := by
  intro d p d' hd h
  simp only [Lowering.floatFn, yields_steps, yields_alloc] at h
  obtain ⟨p0, d1, hx', s, d2, hreg, -, _, _, ⟨_, n, hb, offered, rfl, rfl⟩, -, rfl, rfl⟩ := h
  have hl := (hx d p0 d1 hd hx').toRegister hreg
  cases hb
  have hs := hl.operand_register hf rfl
  refine hl.replace offered ?_ ?_ ?_
  · simp [Instr.fits, Instr.fitsThree, hs]
  · simp [hs]
  · simp [Instr.target?]

theorem abs_lowers (hx : Lowers t c x f) (hb : b = .int ∨ b = .float) (hf : f.bank? = some b) :
    Lowers t c (Lowering.abs x) { bank? := some b, effect := f.effect } := by
  intro d p d' hd h
  simp only [Lowering.abs, yields_steps, yields_alloc] at h
  obtain ⟨p0, d1, hx', s, d2, hreg, -, _, _, ⟨b', n, hb', offered, rfl, rfl⟩, h⟩ := h
  have hl := (hx d p0 d1 hd hx').toRegister hreg
  have hsb := hl.bank.trans hf
  have hs := hl.operand_register hf rfl
  cases hsb.symm.trans hb'
  rcases hb with rfl | rfl
  on_goal 1 => rw [if_neg (by simp [hsb])] at h
  on_goal 2 => rw [if_pos hsb] at h
  all_goals
    simp only [yields_steps] at h
    obtain ⟨-, rfl, rfl⟩ := h
    refine hl.replace offered ?_ ?_ ?_
    · simp [Instr.fits, Instr.fitsThree, hs]
    · simp [hs]
    · simp [Instr.target?]

theorem atan2_lowers (hx : Lowers t c x f) (hy : Lowers t c y g) (hf : f.bank? = some .float)
    (hg : g.bank? = some .float) :
    Lowers t c (Lowering.atan2 x y) { bank? := some .float, effect := f.effect ++ g.effect } := by
  intro d p d' hd h
  simp only [Lowering.atan2, yields_steps, yields_alloc] at h
  obtain ⟨l0, d1, hl, l, d2, hlreg, r0, d3, hr, r, d4, hrreg, -, -, _, _, ⟨_, n, hb, offered, rfl,
    rfl⟩, -, rfl, rfl⟩ := h
  have hl := (hx d l0 d1 hd hl).toRegister hlreg
  have hr := (hy d2 r0 d3 (hd.work hl.toWork) hr).toRegister hrreg
  cases hb
  have hls := hl.operand_register hf rfl
  have hrs := hr.operand_register hg rfl
  refine Leaves.ofFresh (Work.emit (hl.toWork.combine hr.toWork offered) ?_ ?_ ?_ rfl)
    ((hl.toWork.combine hr.toWork offered).fills_push rfl)
  · simp [Instr.fits, Instr.fitsThree, hls, hrs]
  · simp [hls, hrs]
  · simp [Instr.target?]

/-- One more value is compared with the best so far and takes its place if it is better. -/
theorem improve_work (hx : Lowers t c x f) (hb : b = .int ∨ b = .float) (hf : f.bank? = some b)
    {best : Place} {e : Effect} {d d1 d' : Draft} {u : Unit} (hd : Sound c d)
    (hw : Work d best.owned e d1) (hbest : best.operand = .reg (some b) best.number)
    (howned : (b, best.number) ∈ best.owned) (hc : best.isConstant = false)
    (hbank : best.bank? = some b) (h : Yields t (improve (some b) op best x) d1 u d') :
    Work d best.owned (e ++ f.effect) d' ∧ d1.code <+: d'.code := by
  have hcomparand : (if some b = some Bank.float then Comparand.float else .signed).bank = b := by
    rcases hb with rfl | rfl <;> rfl
  unfold improve at h
  generalize (if some b = some Bank.float then Comparand.float else .signed) = comparand
    at h hcomparand
  generalize improvement op = choice at h
  obtain ⟨relation, check⟩ := choice
  simp only [yields_steps] at h
  obtain ⟨value, d2, hx', -, -, _, _, hcopy, -, rfl⟩ := h
  obtain rfl := yields_assign hcopy
  have hl := hx d1 value d2 (hd.work hw) hx'
  have hvb := hl.bank.trans hf
  refine ⟨Work.cast (Work.drop (Work.emitAll (hw.trans hl.toWork) [_, _, _] ?_ ?_ ?_ ?_)
    (hw.right_fresh hl.toWork)) ?_ id rfl rfl, hl.code.trans (by simp)⟩
  · have hcompare : (Instr.abc (.compare relation comparand (if value.isConstant then .rk else .rr))
        (.imm check) best.operand value.operand).fits = true := by
      cases hvc : value.isConstant <;>
        simp [Instr.fits, Instr.fitsThree, hcomparand, Place.operand, hc, hbank, hvc, hvb,
          Slot.inputs]
    simp [hcompare, fits_copyOf hc hbank hvb]
  · have hwithin : (copyOf (some b) best value).Within d2.pools :=
      within_copyOf hc hl.operand_within
    simpa [hbest, hwithin] using hl.operand_within
  · simp [target?_copyOf _ hc, howned]
  · simp only [flowing, proceeds_copyOf]
    rfl
  · ext r
    have := hw.disjoint_held hl.toWork r
    simp only [Set.mem_sdiff, Set.mem_union]
    tauto

variable {args : List Expr} {e : Expr} {ty : Ty}

theorem improveAll_work (hb : b = .int ∨ b = .float)
    (h : ∀ e ∈ args, Lowers t c e.lower (e.footprint c)) (hf : ∀ e ∈ args, e.ty.bank? = some b)
    {best : Place} {effect : Effect} {d d1 d' : Draft} {u : PUnit} (hd : Sound c d)
    (hw : Work d best.owned effect d1) (hbest : best.operand = .reg (some b) best.number)
    (howned : (b, best.number) ∈ best.owned) (hc : best.isConstant = false)
    (hbank : best.bank? = some b)
    (hy : Yields t ((lowerAll args).forM (improve (some b) op best)) d1 u d') :
    Work d best.owned (effect ++ Expr.effectOf args) d' ∧ d1.code <+: d'.code := by
  induction args generalizing effect d1 with
  | nil =>
    obtain ⟨-, rfl⟩ := yields_pure.1 hy
    exact ⟨by simpa [Expr.effectOf, Expr.writesAll, Expr.clashesAny] using hw, List.prefix_rfl⟩
  | cons e rest ih =>
    obtain ⟨he, h⟩ := List.forall_mem_cons.1 h
    obtain ⟨hfe, hf⟩ := List.forall_mem_cons.1 hf
    obtain ⟨_, d2, hfirst, hrest⟩ := yields_bind.1 hy
    obtain ⟨hw2, hcode2⟩ := improve_work he hb hfe hd hw hbest howned hc hbank hfirst
    obtain ⟨hw3, hcode3⟩ := ih h hf hw2 hrest
    rw [Expr.effectOf_cons (c := c) e (by simp [hfe]), ← Effect.append_assoc]
    exact ⟨hw3, hcode2.trans hcode3⟩

theorem extremum_lowers (hb : b = .int ∨ b = .float) (hne : args ≠ [])
    (h : ∀ e ∈ args, Lowers t c e.lower (e.footprint c)) (hf : ∀ e ∈ args, e.ty.bank? = some b)
    (hty : ty.bank? = some b) (op : Extremum) :
    Lowers t c (Lowering.extremum ty op (lowerAll args))
      { bank? := some b, effect := Expr.effectOf args } := by
  intro d p d' hd hy
  cases args with
  | nil => exact absurd rfl hne
  | cons e rest =>
    simp only [lowerAll, Lowering.extremum, hty, yields_steps] at hy
    obtain ⟨p0, d1, he, best, d2, hscratch, _, d3, hrest, rfl, rfl⟩ := hy
    obtain ⟨hfirst, h⟩ := List.forall_mem_cons.1 h
    obtain ⟨hfe, hf⟩ := List.forall_mem_cons.1 hf
    obtain ⟨hl, hfixed⟩ := (hfirst d p0 d1 hd he).toScratch hscratch
    have hbank := hl.bank.trans hfe
    obtain ⟨hw, hcode⟩ := improveAll_work hb h hf hd hl.toWork (hl.operand_register hfe rfl)
      (Place.mem_owned hl.pooled hfixed hbank) hl.pooled hbank hrest
    rw [Expr.effectOf_cons (c := c) e (by simp [hfe])]
    refine Leaves.ofOwned hw hbank (by simp) hl.pooled hfixed hl.plain fun b' hb' => ?_
    cases hb'
    exact (hl.filled_of_own hl.pooled hfixed hfe).later hl.toGrows hcode

end Numbers

/-! ## A random choice -/

section Choice

variable {t : Target} {c : Context} {b : Bank} {args : List Expr} {d d1 d' : Draft} {e : Effect}

/-- Jumps that wait for their targets. -/
def Draft.Waiting (d d' : Draft) (jumps : List Nat) : Prop :=
  ∀ k ∈ jumps, d.code.length ≤ k ∧ d'.JumpAt k

theorem Draft.Waiting.later {d2 : Draft} (h : d.Waiting d1 jumps) (hcode : d1.code <+: d2.code) :
    d.Waiting d2 jumps :=
  fun k hk => ⟨(h k hk).1, (h k hk).2.later hcode⟩

theorem Draft.Waiting.earlier {d2 : Draft} (h : d1.Waiting d2 jumps) (hcode : d.code <+: d1.code) :
    d.Waiting d2 jumps :=
  fun k hk => ⟨hcode.length_le.trans (h k hk).1, (h k hk).2⟩

theorem Draft.Waiting.retarget (h : d.Waiting d1 jumps) (k n : Nat) :
    d.Waiting (d1.retarget k n) jumps :=
  fun k hk => ⟨(h k hk).1, Draft.jumpAt_retarget (h k hk).2⟩

/-- The table of a choice: a jump for each option, all without their targets. -/
theorem yields_jumpTable {α : Type} {options : List α} {table : List Nat}
    (h : Yields t (options.mapM fun _ => liftM Assembly.jumpForward) d table d') :
    table = List.range' d.code.length options.length ∧
      d' = d.pushAll (List.replicate options.length (.asbx .jmp (.imm 0) 0)) := by
  induction options generalizing d table with
  | nil =>
    rw [List.mapM_nil, yields_pure] at h
    obtain ⟨rfl, rfl⟩ := h
    exact ⟨rfl, rfl⟩
  | cons a rest ih =>
    rw [List.mapM_cons] at h
    simp only [yields_steps] at h
    obtain ⟨ks, d2, hrest, rfl, rfl⟩ := h
    obtain ⟨rfl, rfl⟩ := ih hrest
    simp [List.range'_succ, List.replicate_succ]

theorem Draft.jumpAt_table {k : Nat} (h : k ∈ List.range' d.code.length count) :
    (d.pushAll (List.replicate count (.asbx .jmp (.imm 0) 0))).JumpAt k := by
  obtain ⟨i, hi, rfl⟩ := List.mem_range'.1 h
  refine ⟨0, ?_⟩
  rw [Draft.code_pushAll, List.getElem?_append_right (by omega)]
  simp [hi]

theorem Draft.jumpOffset_table (d : Draft) (count : Nat) (i : Instr) (b : Bank) (n : Nat) :
    Assembly.jumpOffset d.code.length ((d.pushAll (List.replicate count i)).take b n).code.length =
      (count : Int) - 1 := by
  simp only [Assembly.jumpOffset, Draft.code_take, Draft.code_pushAll, List.length_append,
    List.length_replicate]
  omega

theorem patchAll_work {held : Set Register} {u : PUnit} (hw : Work d held e d1)
    (hjumps : d.Waiting d1 jumps) (hfills : d.Fills d1 r)
    (hwet : ∀ k ∈ jumps, ¬ Dry d1.code r d.code.length k)
    (h : Yields t (jumps.forM fun k => liftM (Assembly.patch k)) d1 u d') :
    Work d held e d' ∧ d.Fills d' r := by
  suffices hall : (Work d held e d' ∧ d.Fills d' r) ∧ d.Waiting d' jumps ∧
      ∀ k ∈ jumps, ¬ Dry d'.code r d.code.length k from hall.1
  apply h.forM ⟨⟨hw, hfills⟩, hjumps, hwet⟩
  rintro k hk d1 _ _ hpatch ⟨⟨hw, hfills⟩, hjumps, hwet⟩
  obtain ⟨hfits, rfl⟩ := yields_patch.1 hpatch
  obtain ⟨hle, hjump⟩ := hjumps k hk
  exact ⟨⟨hw.patch hjump hle hw.code.length_le le_rfl hfits, hfills.retarget hjump (hwet k hk)⟩,
    hjumps.retarget _ _, fun k' hk' => Draft.not_dry_retarget hjump (hwet k' hk') (hwet k hk)⟩

/-- Every choice is left in the same register, and the jumps past the others still wait. -/
theorem choices_work (h : ∀ e ∈ args, Lowers t c e.lower (e.footprint c))
    (hf : ∀ e ∈ args, e.ty.bank? = some b) {n : Nat} {entries : List Nat}
    (hlen : entries.length = args.length) (hd : Sound c d) (hw : Work d {(b, n)} e d1)
    (hentries : d.Waiting d1 entries) (hfills : args = [] → d.Fills d1 (b, n))
    (hy : Yields t (choices b (.fresh b n) (entries.zip (lowerAll args))) d1
      finishes d') :
    (Work d {(b, n)} (e ++ Expr.effectOf args) d' ∧ d.Waiting d' finishes ∧
      ∀ k, d1.JumpAt k → d'.JumpAt k) ∧
    d.Fills d' (b, n) ∧ (∀ k ∈ finishes, ¬ Dry d'.code (b, n) d.code.length k) ∧
      ∀ k < d1.code.length, ¬ Dry d1.code (b, n) d.code.length k →
        ¬ Dry d'.code (b, n) d.code.length k := by
  induction args generalizing e d1 entries finishes with
  | nil =>
    rw [lowerAll, List.zip_nil_right, choices, yields_pure] at hy
    obtain ⟨rfl, rfl⟩ := hy
    exact ⟨⟨by simpa [Expr.effectOf, Expr.writesAll, Expr.clashesAny] using hw,
      by simp [Draft.Waiting], fun _ => id⟩, hfills rfl, by simp, fun _ _ => id⟩
  | cons x rest ih =>
    obtain ⟨entry, entries, rfl⟩ : ∃ k ks, entries = k :: ks :=
      List.exists_cons_of_length_eq_add_one hlen
    obtain ⟨hfirst, h⟩ := List.forall_mem_cons.1 h
    obtain ⟨hfx, hf⟩ := List.forall_mem_cons.1 hf
    obtain ⟨⟨hle, hjump⟩, hentries⟩ := List.forall_mem_cons.1 hentries
    simp only [lowerAll, List.zip_cons_cons, choices, yields_steps] at hy
    obtain ⟨hfits, value, d2, hx, _, _, hcopy, -, hy⟩ := hy
    obtain rfl := yields_assign hcopy
    have hw1 : Work d {(b, n)} e (d1.retarget entry d1.code.length) :=
      hw.patch hjump hle hw.code.length_le le_rfl hfits
    have hl := hfirst _ value d2 (hd.work hw1) hx
    have hvb := hl.bank.trans hfx
    set d3 := (d2.push (copyOf (some b) (.fresh b n) value)).drop value with hd3
    have hw2 : Work d {(b, n)} (e ++ (x.footprint c).effect) d3 := by
      refine Work.cast (Work.drop (Work.emit (hw1.trans hl.toWork) ?_ ?_ ?_ ?_)
        (hw1.right_fresh hl.toWork)) ?_ id rfl rfl
      · exact fits_copyOf rfl rfl hvb
      · exact within_copyOf rfl hl.operand_within
      · simp [target?_copyOf]
      · simp [proceeds_copyOf]
      · ext r
        have := hw1.disjoint_held hl.toWork r
        simp only [Set.mem_sdiff, Set.mem_union] at this ⊢
        tauto
    have hjumps : ∀ k, d1.JumpAt k → d3.JumpAt k := fun k hk => by
      simp [hd3, (Draft.jumpAt_retarget hk).later hl.code]
    have hfilled : d.Fills d3 (b, n) :=
      Draft.fills_drop.2 ((hw1.trans hl.toWork).fills_push (by simp [target?_copyOf]))
    have hwet : ∀ k < d1.code.length, ¬ Dry d1.code (b, n) d.code.length k →
        ¬ Dry d3.code (b, n) d.code.length k := by
      intro k hk hdry
      have hcopied := hl.toWork.push (k := false) (w := []) (i := copyOf (some b) (.fresh b n) value)
        (within_copyOf rfl hl.operand_within) (by simp) (by simp) (by simp [proceeds_copyOf])
      rw [hd3, Draft.code_drop]
      exact Draft.not_dry_later hw1.toGrows hcopied.toGrows (Draft.not_dry_patch hjump hdry hk)
        (by simpa using hk)
    have hlonger : d1.code.length ≤ d3.code.length := by
      have := hl.code.length_le
      rw [Draft.code_retarget, List.length_modify] at this
      simp [hd3]
      omega
    clear_value d3
    rw [Expr.effectOf_cons (c := c) x (by simp [hfx]), ← Effect.append_assoc]
    split at hy
    next hlast =>
      obtain ⟨rfl, rfl⟩ := yields_pure.1 hy
      have hrest : rest = [] := by
        cases rest with
        | nil => rfl
        | cons _ _ => simp [lowerAll] at hlast; simp [hlast] at hlen
      subst hrest
      exact ⟨⟨by simpa [Expr.effectOf, Expr.writesAll, Expr.clashesAny] using hw2,
        by simp [Draft.Waiting], hjumps⟩, hfilled, by simp, hwet⟩
    next =>
      simp only [yields_steps] at hy
      obtain ⟨finishes, d4, hrest, rfl, rfl⟩ := hy
      have hpast := hw2.emit (i := .asbx .jmp (.imm 0) 0) rfl (by simp) (by simp) rfl
      have hjump := (Work.refl d3).emit (i := .asbx .jmp (.imm 0) 0) rfl (by simp) (by simp) rfl
      obtain ⟨⟨hw3, hfinishes, hkept⟩, hfills3, hpassed, hstill⟩ := ih h hf (by simpa using hlen)
        hpast (fun k hk => ⟨(hentries k hk).1, by simp [hjumps k (hentries k hk).2]⟩)
        (fun _ => hfilled.later hw2.toGrows (by simp)) hrest
      refine ⟨⟨hw3, fun k hk => ?_, fun k hk => hkept k (by simp [hjumps k hk])⟩, hfills3,
        fun k hk => ?_, fun k hk hdry => ?_⟩
      · rcases List.mem_cons.1 hk with rfl | hk
        · exact ⟨hw2.code.length_le, hkept _ (by simp)⟩
        · exact hfinishes k hk
      · rcases List.mem_cons.1 hk with rfl | hk
        · exact hstill _ (by simp) (hfilled.not_dry hw2.toGrows (by simp) le_rfl)
        · exact hpassed k hk
      · exact hstill k (by simp; omega)
          (Draft.not_dry_later hw2.toGrows hjump.toGrows (hwet k hk hdry) (by omega))

theorem drawPosition_lowers (rng : String) (count : Nat) :
    Lowers t c (drawPosition rng count) { bank? := some .int, effect := {} } := by
  have h := ((generator_adds (t := t) (c := c) rng).calls ((paramInt_adds 0).calls
    ((paramInt_adds (Int32.ofInt ((count : Int) - 1))).calls
      (callService_calls .random 3 .int)))).lowers
  simp only [Effect.append_none] at h
  exact h

theorem Int32.toInt_ofInt_of_fits {v : Int} (h : fitsOffset v = true) :
    (Int32.ofInt v).toInt = v := by
  simp only [fitsOffset, Bool.and_eq_true, decide_eq_true_eq] at h
  exact Int32.toInt_ofInt_of_le (by omega) (by omega)

theorem yields_paramInt {v : Int32} {w : Int} {u : Unit} (hv : v.toInt = w)
    (hw : fitsOffset w = true) (h : Yields t (paramInt v) d u d') :
    d' = d.push (.asbx .parami (.imm 0) w) := by
  rw [paramInt, hv, if_pos hw] at h
  exact (yields_emitSigned.1 h).2

/-- The code that draws a position ends with what was asked for, of whom, and where the answer
is. -/
theorem drawPosition_code (hd : Sound c d) (hcount : fitsOffset ((count : Int) - 1) = true)
    (h : Yields t (drawPosition rng count) d p d') :
    ∃ (d1 : Draft) (n : Nat), d.code <+: d1.code ∧ p.operand = .reg (some .int) n ∧
      d'.pools = (d1.store (.address (.native .random))).pools ∧
      d'.code = d1.code ++ [.asbx .parami (.imm 0) 0, .asbx .parami (.imm 0) ((count : Int) - 1),
        .abc .callK (.pool (some .pointer) (d1.indexOf (.address (.native .random)))) (.imm 3)
          (.imm 1),
        .abx .result (.imm 0) (.reg (some .int) n)] := by
  unfold drawPosition at h
  obtain ⟨_, d1, hfirst, h⟩ := yields_bind.1 h
  have hcode := (generator_adds rng d _ d1 hd hfirst).code
  obtain ⟨_, d2, hlow, h⟩ := yields_bind.1 h
  obtain ⟨_, d3, hhigh, h⟩ := yields_bind.1 h
  obtain rfl := yields_paramInt (w := 0) rfl rfl hlow
  obtain rfl := yields_paramInt (Int32.toInt_ofInt_of_fits hcount) hcount hhigh
  simp only [callService, call, Bool.false_eq_true, if_false, result, yields_steps,
    yields_alloc] at h
  obtain ⟨-, _, _, ⟨b, n, hb, -, rfl, rfl⟩, -, rfl, rfl⟩ := h
  cases hb
  have htag : Place.tag (.fresh .int n) = 0 := rfl
  exact ⟨d1, n, hcode, by simp, rfl, by simp [htag]; rfl⟩

theorem drawPosition_draws (hd : Sound c d) (hcount : fitsOffset ((count : Int) - 1) = true)
    (h : Yields t (drawPosition rng count) d p d') :
    ∃ q n, (d.since d').length = q + 4 ∧ p.operand = .reg (some .int) n ∧
      Draws (d.since d') q count n := by
  obtain ⟨d1, n, hcode, hoperand, -, hcalled⟩ := drawPosition_code hd hcount h
  have hsince := Draft.since_of_eq (d := d) (hcalled.trans (by
    rw [Draft.code_eq_since hcode, List.append_assoc]))
  rw [hsince]
  exact ⟨(d.since d1).length, n, by simp, hoperand, Draws.of_append _ _ hcount⟩

/-- The first choice is within reach of its entry in the table. -/
theorem choices_reach {bank : Bank} {out : Place} {entry : Nat} {choice : Lowering Place}
    [Safe choice] {rest : List (Nat × Lowering Place)} (hsafe : ∀ x ∈ rest, Safe x.2)
    (h : Yields t (choices bank out ((entry, choice) :: rest)) d finishes d') :
    fitsOffset (Assembly.jumpOffset entry d.code.length) = true := by
  have hrest := @safe_choices bank out rest hsafe
  rw [choices] at h
  obtain ⟨_, _, hpatch, -⟩ := yields_bind.1 h
  exact (yields_patch.1 hpatch).1

/-- Behind a choice of nothing there is no way. -/
theorem Draft.fills_pick {q m : Nat} {clashes : Bool} (hg : Grows d clashes d1)
    (hq : (d.since d1).length = q + 4) (hdraws : Draws (d.since d1) q 0 m) :
    d.Fills (d1.push (.abx .ijmp (.reg (some .int) m) (.imm 0))) r := by
  have hpicks : Picks (d.since d1 ++ [.abx .ijmp (.reg (some .int) m) (.imm 0)]) q 0 m :=
    { toDraws := hdraws.mono (List.prefix_append _ _)
      pick := by simp [← hq]
      table := by simp }
  have hlen : d1.code.length = d.code.length + q + 4 := by
    rw [Draft.code_eq_since hg.code, List.length_append]
    omega
  have hfirst : d1.Fills (d1.push (.abx .ijmp (.reg (some .int) m) (.imm 0))) r := by
    intro hdry
    rw [Draft.code_push, hlen] at hdry
    rw [Draft.code_eq_since hg.code, List.append_assoc] at hdry
    have := hdry.eq_of_pick hpicks.behind
    simp at this
    omega
  exact hfirst.behind hg (by simp)

/-- A draft with a jump by a number, a table for `count` numbers and a register for the result. -/
def Draft.withTable (d : Draft) (index : Place) (count : Nat) (b : Bank) (n : Nat) : Draft :=
  ((((d.push (.abx .ijmp index.operand (.imm 0))).drop index).pushAll
    (List.replicate count (.asbx .jmp (.imm 0) 0))).take b n)

theorem Draft.code_withTable (d : Draft) (index : Place) (count : Nat) (b : Bank) (n : Nat) :
    (d.withTable index count b n).code = d.code ++ .abx .ijmp index.operand (.imm 0) ::
      List.replicate count (.asbx .jmp (.imm 0) 0) := by
  simp [withTable]

theorem Draft.jumpAt_withTable {index : Place} {n k : Nat}
    (hk : k ∈ List.range' (d.code.length + 1) count) : (d.withTable index count b n).JumpAt k := by
  refine jumpAt_take.2 (jumpAt_table ?_)
  simpa using hk

/-- The parts of a random choice: a position is drawn, the table is laid out, the choices are
lowered, and the jumps behind them get their target. -/
theorem yields_randomPick (hb : b = if float then .float else .int)
    (hy : Yields t (Lowering.randomPick float rng (lowerAll args)) d p d') :
    ∃ index d1 n finishes d3, Yields t (drawPosition rng args.length) d index d1 ∧
      fitsOffset ((args.length : Int) - 1) = true ∧
      (((d1.push (.abx .ijmp index.operand (.imm 0))).drop index).pushAll
        (List.replicate args.length (.asbx .jmp (.imm 0) 0))).Offers b n ∧
      p = .fresh b n ∧
      Yields t (choices b p ((List.range' (d1.code.length + 1) args.length).zip (lowerAll args)))
        (d1.withTable index args.length b n) finishes d3 ∧
      Yields t (finishes.forM fun k => liftM (Assembly.patch k)) d3 ⟨⟩ d' := by
  unfold Lowering.randomPick at hy
  rw [← hb] at hy
  simp only [yields_steps, yields_alloc] at hy
  obtain ⟨index, d1, hdraw, -, -, table, d2, hjumps, _, _, ⟨_, n, hbank, offered, rfl, rfl⟩,
    finishes, d3, hlowered, _, d4, hpatched, rfl, rfl⟩ := hy
  cases hbank
  obtain ⟨rfl, rfl⟩ := yields_jumpTable hjumps
  have hcount : fitsOffset (((lowerAll args).length : Int) - 1) = true := by
    cases args with
    | nil => rfl
    | cons x rest =>
      have hreach := choices_reach (fun y hy => safe_lowerAll rest y.2 (List.of_mem_zip hy).2)
        hlowered
      rwa [Draft.jumpOffset_table] at hreach
  rw [length_lowerAll] at hdraw hcount offered hlowered
  rw [Draft.code_drop, Draft.code_push, List.length_append, List.length_singleton] at hlowered
  exact ⟨index, d1, n, finishes, d3, hdraw, hcount, offered, rfl, hlowered, hpatched⟩

/-- The drawn position jumps into the table, and from there to a choice. -/
theorem randomPick_lowers (h : ∀ e ∈ args, Lowers t c e.lower (e.footprint c))
    (hf : ∀ e ∈ args, e.ty.bank? = some b) (hb : b = if float then .float else .int)
    (rng : String) :
    Lowers t c (Lowering.randomPick float rng (lowerAll args))
      { bank? := some b, effect := Expr.effectOf args } := by
  intro d p d' hd hy
  obtain ⟨index, d1, n, finishes, d3, hdraw, hcount, offered, rfl, hlowered, hpatched⟩ :=
    yields_randomPick hb hy
  obtain ⟨q, m, hq, hindex, hdraws⟩ := drawPosition_draws hd hcount hdraw
  have hl := drawPosition_lowers rng _ d index d1 hd hdraw
  have htable := (hl.toWork.block (w := []) (k := true)
    (.abx .ijmp (.reg (some .int) m) (.imm 0) ::
      List.replicate args.length (.asbx .jmp (.imm 0) 0))
    (by simp) (by simp [Instr.target?]) (by simp) fun hc => hc.pick hdraws hq).drop hl.fresh
  rw [Draft.drop_pushAll, Draft.pushAll_cons, ← hindex, ← Draft.drop_push] at htable
  have hstart : Work d {(b, n)} {} _ := (htable.take offered).cast (by ext; simp) (by simp)
    (by simp) (by simp [Instr.fits, hindex])
  obtain ⟨⟨hdone, hlast, -⟩, hfills, hpassed, -⟩ := choices_work h hf
    (by rw [List.length_range']) hd hstart (fun k hk => by
    have := hl.code.length_le
    have := (List.mem_range'_1.1 hk).1
    exact ⟨by omega, Draft.jumpAt_withTable hk⟩) (fun hnil => by
    subst hnil
    rw [hindex]
    simpa [lowerAll] using Draft.fills_pick hl.toGrows hq hdraws) hlowered
  obtain ⟨hw, hfills⟩ := patchAll_work hdone hlast hfills hpassed hpatched
  simpa using Leaves.ofFresh hw hfills

end Choice

end ActorScript
