import ActorScript.Proofs.Parameters.Operators

/-! # The code of calls

Before a call its parameters are passed in order, and nothing else is passed between them that is
still there at the call. The number in the call is that of the parameters passed for it, if these are
few enough to be counted in sixteen bits.
-/

namespace ActorScript

open Lowering

variable {vs : List (Option Expr)} {α : Type} {e : Expr} {es args : List Expr} {p : Place}
  {x : Lowering Unit} {object : Option Expr} {m : Mark} {tail : Bool} {rng : String}

/-! ## Passing values -/

namespace Params

@[simp]
def append : Params → Params → Params
  | .nil, more => more
  | .cons value rest, more => .cons value (rest.append more)

@[simp]
theorem roles_append : (a b : Params) → (a.append b).roles = a.roles ++ b.roles
  | .nil, _ => rfl
  | .cons value rest, b => by simp [rest.roles_append]

end Params

theorem Passed.append {ws : List (Option Expr)} {a b : Params} (ha : Passed vs a)
    (hb : Passed ws b) : Passed (vs ++ ws) (a.append b) := by
  induction vs generalizing a with
  | nil =>
    cases ha
    exact hb
  | cons v vs ih =>
    cases ha with
    | leading h => exact .leading (ih h)
    | value hlaid h => exact .value hlaid (ih h)

theorem Passed.count_eq {a : Params} (h : Passed vs a) : a.count = vs.length := by
  induction vs generalizing a with
  | nil =>
    cases h
    rfl
  | cons v vs ih =>
    cases h with
    | leading h => simp [ih h]
    | value _ h => simp [ih h]

/-- Lowering adds the code of an expression. -/
def LaysOut {α : Type} (t : Target) (x : Lowering α) (e : Expr) : Prop :=
  ∀ d a d', Yields t x d a d' → ∃ code, Laid e code ∧ d.Appends code.roles d'

/-- Lowering passes values in order. -/
def PassesAll (t : Target) (x : Lowering Unit) (values : List (Option Expr)) : Prop :=
  ∀ d u d', Yields t x d u d' → ∃ passes, Passed values passes ∧ d.Appends passes.roles d'

theorem LaysOut.lays {t : Target} {x : Lowering α} (h : LaysOut t x e) (he : e ∈ es) :
    Lays t x es := by
  intro d a d' hy
  obtain ⟨code, hlaid, happends⟩ := h d a d' hy
  exact ⟨code, .expr he hlaid, happends⟩

section Passing

variable {t : Target} {d d' : Draft} {u : Unit}

theorem appends_param (h : Yields t (param p) d u d') : d.Appends [.pass] d' := by
  simp only [param, yields_bind, yields_emitWide] at h
  obtain ⟨_, _, ⟨-, rfl⟩, hfree⟩ := h
  exact (Draft.Appends.push (i := .abx .param (.imm p.tag) p.operand) (by simp [Instr.op])).still
    (appends_free hfree)

theorem appends_paramInt {v : Int32} (h : Yields t (paramInt v) d u d') : d.Appends [.pass] d' := by
  unfold paramInt at h
  split at h
  · obtain ⟨-, rfl⟩ := yields_emitSigned.1 h
    exact Draft.Appends.push (i := .asbx .parami (.imm 0) v.toInt) (by simp [Instr.op])
  · simp only [yields_bind, yields_intConstant] at h
    obtain ⟨_, _, ⟨-, rfl⟩, hparam⟩ := h
    have hstore : d.Appends [] (d.store (.int v)) := .of_code rfl rfl
    exact hstore.trans (appends_param hparam)

theorem passesAll_of_appends (h : ∀ d u d', Yields t x d u d' → d.Appends [.pass] d') :
    PassesAll t x [none] :=
  fun d u d' hy => ⟨.cons .empty .nil, .leading .nil, h d u d' hy⟩

theorem param_passesAll (p : Place) : PassesAll t (param p) [none] :=
  passesAll_of_appends fun _ _ _ => appends_param

theorem paramInt_passesAll (v : Int32) : PassesAll t (paramInt v) [none] :=
  passesAll_of_appends fun _ _ _ => appends_paramInt

theorem passesAll_nil : PassesAll t (pure ()) [] := by
  intro d u d' hy
  obtain ⟨-, rfl⟩ := yields_pure.1 hy
  exact ⟨.nil, .nil, .refl _⟩

theorem PassesAll.append {y : Lowering Unit} [Safe x] [Safe y] {ws : List (Option Expr)}
    (hx : PassesAll t x vs) (hy : PassesAll t y ws) :
    PassesAll t (x >>= fun _ => y) (vs ++ ws) := by
  intro d u d' h
  obtain ⟨_, d1, hxy, hyy⟩ := yields_bind.1 h
  obtain ⟨first, hfirst, happends⟩ := hx d _ d1 hxy
  obtain ⟨second, hsecond, happends'⟩ := hy d1 u d' hyy
  refine ⟨first.append second, hfirst.append hsecond, ?_⟩
  rw [Params.roles_append]
  exact happends.trans happends'

theorem LaysOut.passesAll {x : Lowering Place} [Safe x] (h : LaysOut t x e) :
    PassesAll t (x >>= param) [some e] := by
  intro d u d' hy
  obtain ⟨p, d1, hx, hparam⟩ := yields_bind.1 hy
  obtain ⟨code, hlaid, happends⟩ := h d p d1 hx
  exact ⟨.cons code .nil, .value hlaid .nil, happends.trans (appends_param hparam)⟩

/-- Finding a value takes no code. -/
theorem passesAll_of_still {x : Lowering α} [Safe x] {f : α → Lowering Unit} [∀ a, Safe (f a)]
    (hx : ∀ d a d', Yields t x d a d' → d.Appends [] d') (hf : ∀ a, PassesAll t (f a) vs) :
    PassesAll t (x >>= f) vs := by
  intro d u d' hy
  obtain ⟨a, d1, hxy, hfy⟩ := yields_bind.1 hy
  obtain ⟨passes, hpassed, happends⟩ := hf a d1 u d' hfy
  exact ⟨passes, hpassed, (hx d a d1 hxy).trans happends⟩

theorem appends_pooledAddress {v : Pooled} (h : Yields t (pooledAddress v) d p d') :
    d.Appends [] d' := by
  obtain ⟨-, rfl⟩ := yields_pooledAddress.1 h
  exact .of_code rfl rfl

theorem appends_selfPlace (h : Yields t selfPlace d p d') : d.Appends [] d' := by
  simp only [selfPlace, yields_read_bind] at h
  split at h
  · exact appends_pooledAddress h
  · obtain ⟨-, rfl⟩ := yields_pure.1 h
    exact .refl _

theorem selfParam_passesAll : PassesAll t (selfPlace >>= param) [none] :=
  passesAll_of_still (fun _ _ _ => appends_selfPlace) param_passesAll

theorem params_passesAll (es : List Expr) (h : ∀ e ∈ es, LaysOut t e.lower e) :
    PassesAll t (params (lowerAll es)) (es.map some) := by
  induction es with
  | nil => exact passesAll_nil
  | cons e rest ih =>
    have hrest := ih fun e he => h e (by simp [he])
    exact (h e (by simp)).passesAll.append (y := params (lowerAll rest)) hrest

theorem callerParams_passesAll : PassesAll t (do (← callerPlaces).forM param) [none, none] := by
  have hboth (p q : Place) : PassesAll t ([p, q].forM param) [none, none] :=
    (param_passesAll p).append (y := [q].forM param)
      ((param_passesAll q).append (y := pure ()) passesAll_nil)
  intro d u d' hy
  obtain ⟨places, d1, hplaces, hparams⟩ := yields_bind.1 hy
  simp only [callerPlaces, yields_read_bind] at hplaces
  split at hplaces
  · obtain ⟨rfl, rfl⟩ := yields_pure.1 hplaces
    exact hboth _ _ _ u d' hparams
  · obtain ⟨null, d2, hnull, hpure⟩ := yields_bind.1 hplaces
    obtain ⟨rfl, rfl⟩ := yields_pure.1 hpure
    obtain ⟨passes, hpassed, happends⟩ := hboth null null _ u d' hparams
    exact ⟨passes, hpassed, (appends_pooledAddress hnull).trans happends⟩

/-- The object comes first, and then the caller. -/
theorem implicitParams_passesAll (h : ∀ e ∈ object, LaysOut t e.lower e) (kind : FunctionKind) :
    PassesAll t (implicitParams kind (lowerOption object)) (kind.leading object) := by
  have hobject : PassesAll t (do param (← (lowerOption object).getD selfPlace)) [object] := by
    cases object with
    | none => exact selfParam_passesAll
    | some e => exact (h e rfl).passesAll
  have hsafe : Safe ((lowerOption object).getD selfPlace) := by
    cases object with
    | none => exact inferInstanceAs (Safe selfPlace)
    | some e => exact e.safe
  cases kind with
  | static => exact passesAll_nil
  | method => exact hobject
  | action =>
    have hboth := hobject.append callerParams_passesAll
    rw [bind_assoc] at hboth
    exact hboth

theorem specialParam_passesAll (h : LaysOut t e.lower e) (named : Bool) :
    PassesAll t (specialParam named e.constant? e.lower) [some e] := by
  unfold specialParam
  cases hconst : e.constant? with
  | none => exact h.passesAll
  | some c =>
    have hlaid : Laid e .empty := by
      cases e with
      | constant m v => exact .node rfl .empty
      | _ => cases hconst
    have hpass {x : Lowering Unit} (hx : ∀ d u d', Yields t x d u d' → d.Appends [.pass] d') :
        PassesAll t x [some e] :=
      fun d u d' hy => ⟨.cons .empty .nil, .value hlaid .nil, hx d u d' hy⟩
    dsimp only
    split
    · refine hpass fun d u d' hy => ?_
      obtain ⟨n, d1, hindex, hparam⟩ := yields_bind.1 hy
      obtain ⟨names, rfl⟩ := yields_nameIndex hindex
      have hnames : d.Appends [] (d.withNames names) := .of_code rfl rfl
      exact hnames.trans (appends_paramInt hparam)
    · exact hpass fun _ _ _ => appends_paramInt

theorem specialParams_passesAll (h : ∀ e ∈ es, LaysOut t e.lower e) (named : Bool) :
    PassesAll t (specialParams named ((es.map Expr.constant?).zip (lowerAll es)))
      (es.map some) := by
  induction es generalizing named with
  | nil => exact passesAll_nil
  | cons e rest ih =>
    exact (specialParam_passesAll (h e (by simp)) named).append
      (y := specialParams false ((rest.map Expr.constant?).zip (lowerAll rest)))
      (ih (fun e he => h e (by simp [he])) false)

theorem nameParams_passesAll (names : List String) :
    PassesAll t (nameParams names) (names.map fun _ => none) := by
  induction names with
  | nil => exact passesAll_nil
  | cons name rest ih =>
    have hname : PassesAll t (do paramInt (Int32.ofNat (← Assembly.nameIndex name))) [none] :=
      passesAll_of_still (fun d n d' hy => by
        obtain ⟨names, rfl⟩ := yields_nameIndex hy
        exact .of_code rfl rfl) fun _ => paramInt_passesAll _
    exact hname.append (y := nameParams rest) ih

end Passing

/-! ## Calls -/

/-- Lowering adds a call with a number of parameters, and then code made of that of expressions. -/
def CallsWith {α : Type} (t : Target) (x : Lowering α) (count : Nat) (es : List Expr) : Prop :=
  ∀ d a d', Yields t x d a d' →
    ∃ rest, Pieces [] es rest ∧ d.Appends (.call count :: rest.roles) d'

section Calls

variable {t : Target} {d d' : Draft}

theorem role_of_call {op : Op} {a c : Operand} {n : Nat} (hop : op = .callK ∨ op = .tailK)
    (hn : n ≤ 255) : (Instr.abc op a (.imm n) c).role = .call n := by
  have hcount : (Instr.abc op a (.imm n) c).low / 256 = n := by
    simp only [Instr.low, Operand.value]
    omega
  rw [Instr.role, hcount]
  rcases hop with rfl | rfl <;> rfl

theorem call_callsWith (callee : Pooled) (count : Nat) (results : List (Option Bank))
    (tail : Bool) : CallsWith t (call callee count results tail) (count % 65536) [] := by
  intro d p d' hy
  have hpush {d : Draft} {op : Op} {a c : Operand} (hop : op = .callK ∨ op = .tailK)
      (hn : count % 65536 ≤ 255) :
      d.Appends [.call (count % 65536)] (d.push (.abc op a (.imm (count % 65536)) c)) := by
    have happends := Draft.Appends.push (d := d) (i := .abc op a (.imm (count % 65536)) c) (by
      rcases hop with rfl | rfl <;> simp [Instr.op])
    rwa [role_of_call hop hn] at happends
  cases tail with
  | true =>
    simp only [call, if_true, yields_bind, yields_emit, yields_pure] at hy
    obtain ⟨place, d1, hcallee, _, _, ⟨hfits, rfl⟩, -, rfl⟩ := hy
    exact ⟨.empty, .empty, (appends_pooledAddress hcallee).trans (hpush (.inr rfl) hfits.2.1)⟩
  | false =>
    cases results with
    | nil =>
      simp only [call, Bool.false_eq_true, if_false, yields_bind, yields_emit, yields_pure] at hy
      obtain ⟨place, d1, hcallee, _, _, ⟨hfits, rfl⟩, -, rfl⟩ := hy
      exact ⟨.empty, .empty, (appends_pooledAddress hcallee).trans (hpush (.inl rfl) hfits.2.1)⟩
    | cons bank? rest =>
      simp only [call, Bool.false_eq_true, if_false, yields_bind, yields_emit] at hy
      obtain ⟨place, d1, hcallee, _, _, ⟨hfits, rfl⟩, hresult⟩ := hy
      obtain ⟨code, hcode, happends⟩ := (Lays.ofQuiet : Lays t (result _) []) _ p d' hresult
      exact ⟨code, hcode,
        ((appends_pooledAddress hcallee).trans (hpush (.inl rfl) hfits.2.1)).trans happends⟩

theorem CallsWith.bind {β : Type} {x : Lowering α} {f : α → Lowering β} [Safe x] [∀ a, Safe (f a)]
    {count : Nat} (hx : CallsWith t x count []) (hf : ∀ a, Lays t (f a) es) :
    CallsWith t (x >>= f) count es := by
  intro d b d' hy
  obtain ⟨a, d1, hxy, hfy⟩ := yields_bind.1 hy
  obtain ⟨first, hfirst, happends⟩ := hx d a d1 hxy
  obtain ⟨second, hsecond, happends'⟩ := hf a d1 b d' hfy
  exact ⟨.seq first second, .seq (hfirst.mono (by simp) (by simp)) hsecond,
    happends.trans happends'⟩

theorem PassesAll.laysOut {y : Lowering α} [Safe x] [Safe y] {values : List (Option Expr)}
    {count : Nat} (hx : PassesAll t x values) (hy : CallsWith t y (count % 65536) e.chosen)
    (hvalues : e.parameters? = some values) (hcount : count = values.length)
    (hfew : count < 65536) : LaysOut t (x >>= fun _ => y) e := by
  intro d a d' h
  obtain ⟨_, d1, hxy, hyy⟩ := yields_bind.1 h
  obtain ⟨passes, hpassed, happends⟩ := hx d _ d1 hxy
  obtain ⟨rest, hrest, happends'⟩ := hy d1 a d' hyy
  refine ⟨.seq (.call e passes) rest, .call hvalues hpassed hrest, ?_⟩
  rw [Nat.mod_eq_of_lt hfew, hcount, ← hpassed.count_eq, ← List.singleton_append] at happends'
  have hboth := happends.trans happends'
  rwa [← List.append_assoc] at hboth

theorem invoke_laysOut {function : Signature} (hobject : ∀ e ∈ object, LaysOut t e.lower e)
    (hargs : ∀ e ∈ args, LaysOut t e.lower e)
    (hfew : function.kind.implicitArgs + args.length < 65536) :
    LaysOut t (invoke function (lowerOption object) (lowerAll args) tail)
      (.invoke m object function args tail) := by
  have hpasses := (implicitParams_passesAll hobject function.kind).append (params_passesAll _ hargs)
  have hcalls : CallsWith t (do
      let owner := (← read).world.className function.owner
      call (.function (owner ++ "." ++ function.name))
        (function.kind.implicitArgs + (lowerAll args).length) (function.returns.map Ty.bank?) tail)
      ((function.kind.implicitArgs + (lowerAll args).length) % 65536) [] :=
    fun d a d' hy => call_callsWith _ _ _ _ d a d' (yields_read_bind.1 hy)
  have hlays := hpasses.laysOut (e := .invoke m object function args tail) hcalls rfl (by
    cases function.kind <;>
      simp [FunctionKind.implicitArgs, FunctionKind.leading, length_lowerAll] <;> omega)
    (by rwa [length_lowerAll])
  rw [bind_assoc] at hlays
  exact hlays

theorem special_laysOut {number : Int32} (hargs : ∀ e ∈ args, LaysOut t e.lower e)
    (hfew : args.length + 2 < 65536) :
    LaysOut t (special number ((args.map Expr.constant?).zip (lowerAll args)) tail)
      (.special m number args tail) := by
  have hpasses := (paramInt_passesAll (t := t) (if number < 0 then -number else number)).append
    (selfParam_passesAll.append (specialParams_passesAll hargs (number < 0)))
  have hlays := hpasses.laysOut (e := .special m number args tail)
    (call_callsWith (.native .callLineSpecial)
      (2 + ((args.map Expr.constant?).zip (lowerAll args)).length) [some .int] tail) rfl (by
        simp [length_lowerAll]
        omega) (by
        simp [length_lowerAll]
        omega)
  simp only [bind_assoc] at hlays
  exact hlays

theorem generator_passesAll (name : String) : PassesAll t (generator name) [none] :=
  passesAll_of_still (fun _ _ _ => appends_pooledAddress) param_passesAll

theorem random_laysOut {float : Bool} {low high : Expr} (hlow : LaysOut t low.lower low)
    (hhigh : LaysOut t high.lower high) :
    LaysOut t (random float rng low.lower high.lower tail)
      (.random m float rng low high tail) := by
  have hboth : PassesAll t (params [low.lower, high.lower]) [some low, some high] :=
    params_passesAll [low, high] (by simp [hlow, hhigh])
  have hsafe : Safe (params [low.lower, high.lower]) := safe_paramsAll [low, high]
  have hcalls : CallsWith t (if float then callService .frandom 3 .float tail
      else callService .random 3 .int tail) (3 % 65536) [] := by
    cases float <;> exact call_callsWith _ _ _ _
  have hlays := ((generator_passesAll rng).append hboth).laysOut
    (e := .random m float rng low high tail) hcalls rfl rfl (by decide)
  rw [bind_assoc] at hlays
  exact hlays

theorem random2_laysOut {mask : Expr} (hmask : LaysOut t mask.lower mask) :
    LaysOut t (random2 rng mask.lower tail) (.random2 m rng mask tail) := by
  have hone : PassesAll t (params [mask.lower]) [some mask] :=
    params_passesAll [mask] (by simp [hmask])
  have hsafe : Safe (params [mask.lower]) := safe_paramsAll [mask]
  have hlays := ((generator_passesAll rng).append hone).laysOut (e := .random2 m rng mask tail)
    (call_callsWith (.native .random2) 2 [some .int] tail) rfl rfl (by decide)
  rw [bind_assoc] at hlays
  exact hlays

theorem classCast_laysOut {operand : Expr} {target : ClassId}
    (h : LaysOut t operand.lower operand) :
    LaysOut t (classCast target operand.lower) (.classCast m operand target) := by
  have hclass : PassesAll t (do
      param (← pooledAddress (.cls ((← read).world.className target)))) [none] :=
    fun d u d' hy => passesAll_of_still (fun _ _ _ => appends_pooledAddress) param_passesAll d u d'
      (yields_read_bind.1 hy)
  have hlays := (h.passesAll.append hclass).laysOut (e := .classCast m operand target)
    (call_callsWith (.native .nameToClass) 2 [some .pointer] false) rfl rfl (by decide)
  simp only [bind_assoc] at hlays
  exact hlays

theorem runtimeState_laysOut {index : Expr} (h : LaysOut t index.lower index) :
    LaysOut t (runtimeState index.lower tail) (.runtimeState m index tail) := by
  have hpasses := (param_passesAll (t := t) (.fixed Bank.pointer 1)).append
    ((param_passesAll (.fixed Bank.pointer 2)).append h.passesAll)
  have hlays := hpasses.laysOut (e := .runtimeState m index tail)
    (call_callsWith (.native .handleRuntimeState) 3 [some .pointer] tail) rfl rfl (by decide)
  simp only [bind_assoc] at hlays
  exact hlays

theorem stateLabel_laysOut {text : String} {names : List String} (hfew : names.length + 1 < 65536) :
    LaysOut t (stateLabel names tail) (.stateLabel m text names tail) := by
  have howner : PassesAll t (stateOwner >>= param) [none] := by
    refine passesAll_of_still (fun d p d' hy => ?_) param_passesAll
    simp only [stateOwner, yields_read_bind] at hy
    split at hy
    · obtain ⟨-, rfl⟩ := yields_pure.1 hy
      exact .refl _
    · exact appends_selfPlace hy
  have hlays := (howner.append (nameParams_passesAll names)).laysOut
    (e := .stateLabel m text names tail)
    (call_callsWith (.native (if names.length = 1 then .findSingleNameState
      else .findMultiNameState)) (names.length + 1) [some .pointer] tail) rfl (by simp) hfew
  simp only [bind_assoc] at hlays
  exact hlays

end Calls

/-! ## A random choice -/

section Choice

variable {t : Target} {d d' : Draft} {es : List Expr}

theorem appends_jumpTable {options : List α} {table : List Nat}
    (h : Yields t (options.mapM fun _ => liftM Assembly.jumpForward) d table d') :
    ∃ code, Pieces [] es code ∧ d.Appends code.roles d' ∧ ∀ k ∈ table, d'.Waits k := by
  induction options generalizing d table with
  | nil =>
    rw [List.mapM_nil, yields_pure] at h
    obtain ⟨rfl, rfl⟩ := h
    exact ⟨.empty, .empty, .refl _, by simp⟩
  | cons a rest ih =>
    rw [List.mapM_cons] at h
    simp only [yields_bind, yields_pure] at h
    obtain ⟨k, d1, hjump, ks, d2, hrest, rfl, rfl⟩ := h
    obtain ⟨happends, hwaits⟩ := appends_forward hjump
    obtain ⟨code, hcode, happends', hall⟩ := ih hrest
    refine ⟨.seq .jump code, .seq .jump hcode, happends.trans happends', ?_⟩
    simp only [List.mem_cons, forall_eq_or_imp]
    exact ⟨hwaits.mono happends', hall⟩

theorem appends_patchAll {jumps : List Nat} {u : PUnit} (hjumps : ∀ k ∈ jumps, d.Waits k)
    (h : Yields t (jumps.forM fun k => liftM (Assembly.patch k)) d u d') : d.Appends [] d' :=
  h.forM (.refl d) fun k hk _ _ _ hpatch hw => hw.still (appends_patch ((hjumps k hk).still hw) hpatch)

/-- Every choice is led to from the table, and leads to the end of all. -/
theorem choices_appends {bank : Bank} {out : Place} {options : List (Nat × Lowering Place)}
    {finishes : List Nat} (hsafe : ∀ x ∈ options, Safe x.2) (hlays : ∀ x ∈ options, Lays t x.2 es)
    (hentries : ∀ x ∈ options, d.Waits x.1)
    (h : Yields t (choices bank out options) d finishes d') :
    ∃ code, Pieces [] es code ∧ d.Appends code.roles d' ∧ ∀ k ∈ finishes, d'.Waits k := by
  induction options generalizing d finishes with
  | nil =>
    obtain ⟨rfl, rfl⟩ := yields_pure.1 h
    exact ⟨.empty, .empty, .refl _, by simp⟩
  | cons option rest ih =>
    obtain ⟨entry, choice⟩ := option
    have hchoice : Safe choice := hsafe (entry, choice) (by simp)
    have hrest : Safe (choices bank out rest) := safe_choices fun x hx => hsafe x (by simp [hx])
    rw [choices] at h
    simp only [yields_bind] at h
    obtain ⟨_, d1, hpatch, value, d2, hvalue, _, d3, hassign, _, d4, hfree, h⟩ := h
    have hentry : d.Waits entry := hentries (entry, choice) (by simp)
    have hw1 := appends_patch hentry hpatch
    obtain ⟨first, hfirst, hw2⟩ := hlays (entry, choice) (by simp) d1 value d2 hvalue
    obtain ⟨move, hmove, hw3⟩ := (Lays.ofQuiet : Lays t _ es) d2 _ d3 hassign
    have hw4 := (hw1.trans hw2).trans (hw3.still (appends_free hfree))
    split at h
    · obtain ⟨rfl, rfl⟩ := yields_pure.1 h
      exact ⟨.seq first move, .seq hfirst hmove, hw4, by simp⟩
    · simp only [yields_bind, yields_pure] at h
      obtain ⟨finish, d5, hjump, others, d6, hothers, rfl, rfl⟩ := h
      obtain ⟨hw5, hfinish⟩ := appends_forward hjump
      have hw14 : d.Appends (Layout.seq first move).roles d4 := hw4
      obtain ⟨second, hsecond, hw6, hall⟩ := ih (fun x hx => hsafe x (by simp [hx]))
        (fun x hx => hlays x (by simp [hx]))
        (fun x hx => ((hentries x (by simp [hx])).mono hw14).mono hw5) hothers
      refine ⟨.seq (.seq first move) (.seq .jump second),
        .seq (.seq hfirst hmove) (.seq .jump hsecond), hw14.trans (hw5.trans hw6), ?_⟩
      simp only [List.mem_cons, forall_eq_or_imp]
      exact ⟨hfinish.mono hw6, hall⟩

/-- Three numbers and pointers are passed to draw a position, and then one of the choices runs. -/
theorem randomPick_laysOut {float : Bool} {options : List Expr}
    (h : ∀ e ∈ options, LaysOut t e.lower e) :
    LaysOut t (randomPick float rng (lowerAll options)) (.randomPick m float rng options) := by
  have hlays (e : Expr) (he : e ∈ options) : Lays t e.lower options := (h e he).lays he
  have hall (x : Lowering Place) (hx : x ∈ lowerAll options) : Lays t x options := by
    obtain ⟨e, he, rfl⟩ := mem_lowerAll.1 hx
    exact hlays e he
  have hpick (bank : Bank) (index : Place) : Lays t (do
      emitWide .ijmp index.operand (.imm 0)
      index.free
      let table ← (lowerAll options).mapM fun _ => Assembly.jumpForward
      let out ← Place.alloc bank
      let finishes ← choices bank out (table.zip (lowerAll options))
      finishes.forM fun finish => Assembly.patch finish
      return out) options := by
    refine .bind .ofQuiet fun _ => .bind .ofQuiet fun _ => ?_
    intro d p d' hy
    simp only [yields_steps, yields_alloc] at hy
    obtain ⟨table, d1, hjumps, out, _, ⟨b, n, -, -, -, rfl⟩, finishes, d2, hchoose, _, d3, hpatch,
      -, rfl⟩ := hy
    obtain ⟨first, hfirst, hw1, hentries⟩ := appends_jumpTable hjumps
    have htake : d1.Appends [] (d1.take b n) := .of_code rfl rfl
    obtain ⟨second, hsecond, hw2, hfinishes⟩ := choices_appends
      (fun p hp => safe_lowerAll options p.2 (List.of_mem_zip hp).2)
      (fun p hp => hall p.2 (List.of_mem_zip hp).2)
      (fun p hp => (hentries p.1 (List.of_mem_zip hp).1).still htake) hchoose
    exact ⟨.seq first second, .seq hfirst hsecond,
      (hw1.still htake).trans (hw2.still (appends_patchAll hfinishes hpatch))⟩
  have hpasses := (generator_passesAll (t := t) rng).append ((paramInt_passesAll 0).append
    (paramInt_passesAll (Int32.ofInt (((lowerAll options).length : Int) - 1))))
  have hlays := hpasses.laysOut (e := .randomPick m float rng options)
    ((call_callsWith (.native .random) 3 [some .int] false).bind
      (hpick (if float then .float else .int))) rfl rfl (by decide)
  simp only [bind_assoc] at hlays
  unfold randomPick drawPosition
  simp only [bind_assoc]
  exact hlays

end Choice

end ActorScript
