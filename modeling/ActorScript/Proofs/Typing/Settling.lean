import ActorScript.Proofs.Typing.Expressions

/-! # Typing gives settled trees

Settled trees outlast the rules of typing, so what typing makes of a tree is settled, in every
context that fits the scope.
-/

namespace ActorScript

open Typing

/-! ## Changes of a node -/

section Nodes

variable {c : Context} {byAddress : Bool} {e : Expr} {ty : Ty}

theorem Settled.inType (h : Settled c byAddress e) : e.InType := by
  rintro v hv
  obtain ⟨m, rfl⟩ := Expr.eq_of_constant? hv
  cases h with
  | constant hm => simp [Expr.ty, Expr.mark, hm]

theorem Settled.retype (h : Settled c byAddress e) (hwidens : c.setting.world.Widens e.ty ty) :
    Settled c byAddress (e.retype ty) := by
  have hty : Ty.Agree e.ty ty := hwidens.agree
  have hb : e.ty.bank? = ty.bank? := hty.1
  cases h with
  | constant hm hbank =>
    simp only [Expr.ty, Expr.mark, hm, Option.getD_some] at hb
    exact .constant rfl (hb ▸ hbank)
  | cast he hbank htakes hm => exact .cast he hbank htakes (hb.symm.trans hm)
  | intCast he hbank hm => exact .intCast he hbank (hb.symm.trans hm)
  | classCast he hbank hm => exact .classCast he hbank (hb.symm.trans hm)
  | minus he hbank hnum hm => exact .minus he hbank hnum (hb.symm.trans hm)
  | complement hop he hbank hm => exact .complement hop he hbank (hb.symm.trans hm)
  | @step _ m _ _ _ _ he hbank hnum hm hplace =>
    exact .step (m := { m with ty := some ty }) he hbank hnum (hb.symm.trans hm) hplace
  | @assign _ m _ _ htarget hvalue hagree hm =>
    exact .assign (m := { m with ty := some ty }) htarget hvalue hagree (hty.symm.trans hm)
  | assigned htarget hm => exact .assigned htarget (hty.symm.trans hm)
  | binary hl hr hlb hrb hop hm hconst =>
    exact .binary hl hr hlb hrb hop (hb.symm.trans hm) hconst
  | logical hl hr hlb hrb hm => exact .logical hl hr hlb hrb (hb.symm.trans hm)
  | conditional hc ht hf hcb hta hfa =>
    exact .conditional hc ht hf hcb (hta.trans hty) (hfa.trans hty)
  | selfRef hkind hm => exact .selfRef hkind (hb.symm.trans hm)
  | @localVar _ m _ hm => exact .localVar (m := { m with ty := some ty }) (hb.symm.trans hm)
  | @field _ m _ _ _ hobject hbank hfield =>
    obtain ⟨f, hsees, hoffset, hreadonly, hagree⟩ := hfield
    exact .field (m := { m with ty := some ty }) hobject hbank
      ⟨f, hsees, hoffset, hreadonly, .trans hagree hwidens⟩
  | @element _ m _ _ _ _ _ harray hindex hty' hint hbank hnum hm =>
    exact .element (m := { m with ty := some ty }) harray hindex hty' hint hbank hnum
      (hb.symm.trans hm)
  | invoke hobject hpointer hargs hvoid hm hself =>
    exact .invoke hobject hpointer hargs hvoid (hty.symm.trans hm) hself
  | special hargs hint hm => exact .special hargs hint (hb.symm.trans hm)
  | floatFn he hbank hm => exact .floatFn he hbank (hb.symm.trans hm)
  | random hl hh hlb hhb hbank hm => exact .random hl hh hlb hhb hbank (hb.symm.trans hm)
  | random2 he hbank hm => exact .random2 he hbank (hb.symm.trans hm)
  | randomPick hargs hbanks hbank hm => exact .randomPick hargs hbanks hbank (hb.symm.trans hm)
  | extremum hne hargs hbanks hbank hm =>
    exact .extremum hne hargs hbanks hbank (hb.symm.trans hm)
  | abs he hbank hnum hm => exact .abs he hbank hnum (hb.symm.trans hm)
  | atan2 hy hx hyb hxb hm => exact .atan2 hy hx hyb hxb (hb.symm.trans hm)
  | runtimeState he hbank hm => exact .runtimeState he hbank (hb.symm.trans hm)
  | stateLabel hm => exact .stateLabel (hb.symm.trans hm)

/-- What a settled tree becomes when it is asked for its place. -/
theorem Settled.addressOf (h : Settled c byAddress e) {writable : Bool} {place : Expr}
    (hplace : e.addressOf? = some (writable, place)) :
    Settled c true place ∧ place.ty = e.ty ∧ place.localId? = e.localId? := by
  induction h generalizing writable place with
  | @step _ m op before operand _ he hbank hnum hm _ =>
    cases before with
    | false => cases hplace
    | true =>
      cases hplace
      exact ⟨.step (m := { m with byAddress := true }) he hbank hnum hm fun _ => rfl, rfl, rfl⟩
  | @assign _ m target value htarget hvalue hagree hm =>
    cases hplace
    exact ⟨.assign (m := { m with byAddress := true }) htarget hvalue hagree hm, rfl, rfl⟩
  | @localVar _ m id hm =>
    cases hplace
    exact ⟨.localVar (m := { m with byAddress := true }) hm, rfl, rfl⟩
  | @field _ m object offset readonly hobject hbank hfield =>
    cases hplace
    exact ⟨.field (m := { m with byAddress := true }) hobject hbank hfield, rfl, rfl⟩
  | @element _ m array index elem count bank _ hindex hty hint hbank hnum hm ih _ =>
    rw [Expr.addressOf?] at hplace
    obtain ⟨⟨w, a⟩, ha, hpair⟩ := Option.map_eq_some_iff.1 hplace
    cases hpair
    obtain ⟨hsettled, haty, -⟩ := ih ha
    exact ⟨.element (m := { m with byAddress := true }) hsettled hindex (haty.trans hty) hint hbank
      hnum hm, rfl, rfl⟩
  | _ => cases hplace

end Nodes

/-! ## Contexts of a scope -/

/-- A context tells of a setting and a scope what trees settled in them depend on. -/
structure Context.Fits (c : Context) (σ : Setting) (s : Scope) : Prop where
  setting : c.setting = σ
  kind : σ.selfClass?.isSome → c.kind ≠ .static
  types : ∀ id ∈ s.lookupOrder, c.types id = s.typeOf id
  target : c.target.map Prod.snd = s.targets.head?

section Scopes

variable {σ : Setting} {s s' : Scope} {c : Context} {e : Expr}

/-- The right side of an assignment sees the type of the left one. -/
theorem Context.Fits.under (h : c.Fits σ s) (target : Expr) :
    (c.under target).Fits σ (s.pushTarget target.ty) where
  __ := h
  target := rfl

theorem Context.Fits.noted (hc : c.Fits σ s') (h : s.Noted s') : c.Fits σ s where
  __ := hc
  types := by simpa only [Scope.lookupOrder_eq h.core, Scope.typeOf_eq h.core] using hc.types
  target := by simpa only [Scope.targets_eq h.core] using hc.target

/-- A context that fits a scope and gives the variables out of sight a type of choice. -/
def Context.ofScope (σ : Setting) (s : Scope) (hidden : Ty) : Context where
  setting := σ
  kind := .method
  types id := if id ∈ s.lookupOrder then s.typeOf id else hidden
  target := s.targets.head?.map fun ty => (none, ty)

theorem Context.ofScope_fits (σ : Setting) (s : Scope) (hidden : Ty) :
    (Context.ofScope σ s hidden).Fits σ s where
  setting := rfl
  kind _ := by simp [Context.ofScope]
  types id hid := by simp [Context.ofScope, hid]
  target := by cases h : s.targets.head? <;> simp [Context.ofScope, h]

/-- Settled whatever else there is in the context. -/
def Expr.SettledIn (σ : Setting) (s : Scope) (e : Expr) : Prop :=
  ∀ c : Context, c.Fits σ s → Settled c false e

theorem Expr.SettledIn.noted (h : e.SettledIn σ s) (hn : s.Noted s') : e.SettledIn σ s' :=
  fun c hc => h c (hc.noted hn)

/-! ## Rules -/

theorem Settled.made (hc : c.Fits σ s) (h : e.Made σ s)
    (hchildren : ∀ x ∈ e.children, Settled c false x) : Settled c false e := by
  have first {x : Expr} {rest : List Expr} (h : e.children = x :: rest) : Settled c false x :=
    hchildren x (by simp [h])
  have second {x y : Expr} {rest : List Expr} (h : e.children = x :: y :: rest) :
      Settled c false y :=
    hchildren y (by simp [h])
  have number (float : Bool) : (numberType float).bank? = some (if float then .float else .int) := by
    cases float <;> rfl
  cases h with
  | @cast _ kind _ _ hb htakes => exact .cast (first rfl) hb htakes (by cases kind <;> rfl)
  | intCast hf => exact .intCast (first rfl) (Ty.bank_of_isFloat hf) rfl
  | classCast hb => exact .classCast (first rfl) hb rfl
  | minus hty =>
    obtain ⟨b, hnum, hb, htyb⟩ := bank_of_signedType hty
    exact .minus (first rfl) hb hnum htyb
  | bitNot hb =>
    refine .complement (.inl rfl) (first rfl) hb ?_
    simp only [Mark.bank?, Expr.settled, Option.getD_some]
    split <;> rfl
  | boolNot hty => exact .complement (.inr rfl) (first rfl) (by rw [hty]; rfl) rfl
  | binary hl hr hop hty _ hconst => exact .binary (first rfl) (second rfl) hl hr hop hty hconst
  | logical hl hr =>
    exact .logical (first rfl) (second rfl) (by rw [hl]; rfl) (by rw [hr]; rfl) rfl
  | conditional hcond _ ht hf =>
    exact .conditional (first rfl) (second rfl) (hchildren _ (by simp [Expr.children]))
      (by rw [hcond]; rfl) ht hf
  | selfRef hcls => exact .selfRef (hc.kind (by simp [hcls])) rfl
  | @localVar span id hid =>
    exact .localVar (m := Expr.settled span _) (congrArg Ty.bank? (hc.types id hid).symm)
  | @field span object f hb hsees =>
    exact .field (m := Expr.settled span f.ty) (first rfl) hb
      ⟨f, hc.setting ▸ hsees, rfl, rfl, .refl _⟩
  | invoke hobject _ hvoid hself =>
    refine .invoke (fun e he => hchildren e ?_) hobject (fun e he => hchildren e ?_) hvoid (.refl _)
      (hc.setting ▸ hself)
    · exact List.mem_append_left _ (Option.mem_toList.2 he)
    · exact List.mem_append_right _ he
  | special hargs => exact .special hchildren hargs rfl
  | floatFn hf => exact .floatFn (first rfl) (Ty.bank_of_isFloat hf) rfl
  | random hl hh =>
    exact .random (first rfl) (second rfl) (hl.trans (number _)) (hh.trans (number _)) rfl (number _)
  | random2 hb => exact .random2 (first rfl) hb rfl
  | randomPick hargs =>
    exact .randomPick hchildren (fun e he => (hargs e he).trans (number _)) rfl (number _)
  | extremum hlength hargs =>
    refine .extremum hlength hchildren (fun e he => ?_) ?_ (number _)
    · rw [Ty.bank_of_isNumeric (hargs e he).1, (hargs e he).2]
    · split <;> simp
  | abs hty =>
    obtain ⟨b, hnum, hb, htyb⟩ := bank_of_signedType hty
    exact .abs (first rfl) hb hnum htyb
  | atan2 hy hx =>
    exact .atan2 (first rfl) (second rfl) (Ty.bank_of_isFloat hy) (Ty.bank_of_isFloat hx) rfl
  | runtimeState hb => exact .runtimeState (first rfl) hb rfl
  | stateLabel => exact .stateLabel rfl

/-- Being settled outlasts the rules of typing. -/
theorem settled_pliant (hc : c.Fits σ s) : Pliant σ s false fun _ => Settled c false where
  more he _ := he
  constant _ _ _ _ _ hm hb _ _ := .constant hm hb
  node hmade h := .made hc hmade h.always
  retype he hwidens _ := he.retype (hc.setting ▸ hwidens)
  element {_ _ span _ _ _ _ elem _} ha hi hplace hty hint hnum := by
    obtain ⟨hplace, hpty, -⟩ := ha.addressOf hplace
    rcases hnum with hb | hb
    · exact .element (m := Expr.settled span elem) hplace hi (hpty.trans hty) hint hb (.inl rfl) hb
    · exact .element (m := Expr.settled span elem) hplace hi (hpty.trans hty) hint hb (.inr rfl) hb
  step {_ span _ _ x _} hx hplace hnum _ := by
    obtain ⟨hplace, hty, -⟩ := hx.addressOf hplace
    have hb := Ty.bank_of_isNumeric hnum
    refine .step (m := Expr.settled span x.ty) hplace (hty ▸ hb) ?_ hb (by simp [Expr.settled])
    split <;> simp

theorem settledIn_lasting (σ : Setting) : Lasting σ false (Expr.SettledIn σ) where
  pliant s := by
    constructor
    · exact ⟨fun he _ => he, fun operands _ _ _ _ hm hb _ _ c _ => .constant hm hb,
        fun hmade hchildren c hc => .made hc hmade fun x hx => hchildren.always x hx c hc⟩
    · exact fun he hwidens hreads c hc =>
        (settled_pliant hc).retype (n := 0) (he c hc) hwidens hreads
    · exact fun ha hi hplace hty hint hnum c hc =>
        (settled_pliant hc).element (n := 0) (k := 0) (ha c hc) (hi c hc) hplace hty hint hnum
    · exact fun hx hplace hnum hbool c hc =>
        (settled_pliant hc).step (n := 0) (hx c hc) hplace hnum hbool
  inType s e h := (h _ (Context.ofScope_fits σ s .int)).inType
  noted hn he := he.noted hn
  assign {s span target place value} htarget hvalue hty hplace c hc := by
    obtain ⟨hplace, hpty, hid⟩ := (htarget c hc).addressOf hplace
    have hunder : c.under place = c.under target := by rw [Context.under, Context.under, hpty, hid]
    exact .assign (m := Expr.settled span target.ty) hplace (hunder ▸ hvalue _ (hc.under target))
      (.of_eq (hty.trans hpty.symm)) (.of_eq hpty.symm)
  assigned {s span ty} hty c hc := by
    have htarget := hc.target
    rw [hty, Option.map_eq_some_iff] at htarget
    obtain ⟨target, htarget, rfl⟩ := htarget
    exact .assigned htarget (.refl _)

/-- Typing a tree gives a settled one, unless it is rejected. -/
theorem Written.settle_in (h : Written e) : Ensures σ s e.settle (Expr.SettledIn σ s) :=
  h.settle_bears (settledIn_lasting σ) nofun

end Scopes

end ActorScript
