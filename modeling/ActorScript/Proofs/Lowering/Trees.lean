import ActorScript.Proofs.Lowering.Calls
import ActorScript.Proofs.Lowering.Operators
import ActorScript.Proofs.Lowering.Storage

/-! # The code of settled trees

The contracts of the single operations, put together along the tree: code of a settled tree
does what the tree says of it.
-/

namespace ActorScript

open Lowering

variable {byAddress : Bool} {e : Expr} {b : Bank} {effect : Effect}

/-! ## Facts about settled trees -/

theorem Settled.kind_of_isSelf {c : Context} (h : Settled c byAddress e) :
    e.isSelf = true → c.kind ≠ .static := by
  induction h with
  | selfRef hkind _ => exact fun _ => hkind
  | assign _ _ _ _ _ ih => exact ih
  | _ => simp

section Trees

variable {t : Target} {c : Context}

/-- What the code of a settled tree does, asked for its place or for its value. -/
def Expr.Performs (t : Target) (c : Context) : Bool → Expr → Prop
  | true, e => Finds t c e.lower (e.localId?, e.ty) ⟨decide (e.ty ≠ .void), e.writes, e.clashes⟩
  | false, e => Lowers t c e.lower (e.footprint c)

theorem Ty.ne_void_of_bank {ty : Ty} (h : ty.bank? = some b) : ty ≠ .void := by
  rintro rfl
  cases h

theorem Ty.Agree.void_iff {a b : Ty} (h : Agree a b) : a = .void ↔ b = .void := by
  constructor
  · rintro rfl
    exact (h.2 rfl).symm
  · rintro rfl
    exact h.2 (h.1.trans rfl)

theorem Reaches.retell {v? : Option LocalId} {ty ty' : Ty} {e e' : Effect} {d d' : Draft} {p : Place}
    (h : Reaches (v?, ty) e d p d') (hty : ty.bank? = ty'.bank?) (hb : e'.banked → e.banked)
    (hw : e'.writes = e.writes) (hc : e'.clashes = e.clashes) : Reaches (v?, ty') e' d p d' :=
  { h with
    toWork := h.toWork.cast rfl hb hw hc
    isTarget := { h.isTarget with
      ofVariable := fun v hv => by
        obtain ⟨b, hb, hbank, hhome⟩ := h.isTarget.ofVariable v hv
        exact ⟨b, hb, hty ▸ hbank, hhome⟩ } }

namespace Expr.Performs

variable {e : Expr} {b : Bank}

theorem ofLowers {f : Footprint} (h : Lowers t c e.lower f) (hv : f.isVoid = true → e.ty = .void)
    (hb : e.ty.bank?.isSome = true → f.effect.banked = true)
    (hf : { f with
      isVoid := decide (e.ty = .void)
      effect := { f.effect with banked := e.ty.bank?.isSome } } = e.footprint c) :
    e.Performs t c false := by
  intro d p d' hd hy
  have hl := h d p d' hd hy
  rw [← hf]
  exact { hl with
    toWork := hl.toWork.cast rfl hb rfl rfl
    void := fun hnone => by simpa using hv (hl.void hnone) }

theorem ofValue (hb : e.ty.bank? = some b)
    (h : Lowers t c e.lower { bank? := some b, effect := effect })
    (heffect : effect = ⟨true, e.writes, e.clashes⟩)
    (plain : e.isPooled = false ∧ (∀ v?, e.holder? v? = none) ∧ e.isSelf = false) :
    e.Performs t c false :=
  ofLowers h (by simp) (by simp [heffect]) (by simp [Expr.footprint, hb, heffect, plain])

theorem ofFinds {ty : Ty} (h : Finds t c e.lower (e.localId?, ty) effect)
    (hty : ty.bank? = e.ty.bank?) (hb : e.ty ≠ .void → effect.banked = true)
    (hw : e.writes = effect.writes) (hc : e.clashes = effect.clashes) : e.Performs t c true :=
  fun d p d' hd hy => (h d p d' hd hy).retell hty (fun hvoid => hb (by simpa using hvoid)) hw hc

theorem valued (h : e.Performs t c false) (hvoid : e.ty ≠ .void) : e.Valued t c := by
  intro d p d' hd hy
  cases hb : e.ty.bank? with
  | none => exact absurd (by simpa [Expr.footprint] using (h d p d' hd hy).void hb) hvoid
  | some b => rfl

end Expr.Performs

theorem Expr.effect_footprint (hb : e.ty.bank? = some b) :
    (e.footprint c).effect = ⟨true, e.writes, e.clashes⟩ := by
  simp [Expr.footprint, hb]

/-- No code is made for constants. -/
theorem Expr.effect_of_constant (hb : e.ty.bank? = some b) (h : e.constant?.isSome) :
    (e.footprint c).effect = {} := by
  cases e <;> simp [Expr.constant?] at h
  simp [Expr.effect_footprint hb]

theorem Expr.misreads_eq (op : BinOp) (left right : Expr) :
    misreads op left right = misreadsPooled op right.constant? left.isPooled right.isPooled := by
  cases op <;> simp [misreads, misreadsPooled, Expr.isConstant]

/-! ## Places and values in memory -/

section Storage

variable {m : Mark}

theorem step_performs {op : StepOp} {before : Bool} {operand : Expr}
    (hx : operand.Performs t c true) (hb : operand.ty.bank? = some b)
    (hbank : b = .int ∨ b = .float) (hm : m.bank? = some b)
    (hplace : m.byAddress = true → before = true) :
    (Expr.step m op before operand).Performs t c m.byAddress := by
  have hvoid := Ty.ne_void_of_bank hb
  have hty : operand.ty.bank? = (Expr.step m op before operand).ty.bank? := hb.trans hm.symm
  obtain ⟨span, ty, byAddress⟩ := m
  cases byAddress with
  | true =>
    cases hplace rfl
    have hr := stepBefore_finds hx hb hbank op
    exact Expr.Performs.ofFinds hr hty (by simp [hvoid]) (by simp) (by simp)
  | false =>
    cases before with
    | true =>
      have hl := stepBefore_lowers hx hb hbank op
      refine Expr.Performs.ofLowers hl (by simp) (by simp [hvoid]) ?_
      simp [Expr.footprint, hty]
    | false =>
      have hl := stepAfter_lowers hx hb hbank op
      refine Expr.Performs.ofLowers hl (by simp) (by simp [hvoid]) ?_
      simp [Expr.footprint, hty]

theorem assign_performs {target value : Expr} (hx : target.Performs t c true)
    (hy : value.Performs t (c.under target) false) (hvalue : Ty.Agree value.ty target.ty)
    (hm : Ty.Agree (m.ty.getD .error) target.ty) :
    (Expr.assign m target value).Performs t c m.byAddress := by
  have hty : target.ty.bank? = (Expr.assign m target value).ty.bank? := hm.1.symm
  obtain ⟨span, ty, byAddress⟩ := m
  cases byAddress with
  | true =>
    intro d p d' hd h
    have hr := assignment_finds hx hy hvalue.1 d p d' hd h
    obtain ⟨_, _, _, _, _, hl, -⟩ := yields_assignment hx hy hvalue.1 hd h
    refine hr.retell hty (fun hvoid => ?_) (by simp [Expr.footprint])
      (by simp [Expr.footprint, Bool.or_assoc])
    -- What has no value but a type cannot be stored.
    have hvoid : target.ty ≠ .void := fun h => (of_decide_eq_true hvoid) (hm.void_iff.2 h)
    have hbank : value.ty.bank?.isSome := by
      cases hb : value.ty.bank? with
      | none => exact absurd (hvalue.void_iff.1 (by simpa [Expr.footprint] using hl.void hb)) hvoid
      | some b => rfl
    simp [Expr.footprint, hvoid, hbank]
  | false =>
    have hl := assignment_lowers hx hy hvalue.1
    refine Expr.Performs.ofLowers hl (fun hv => ?_) (fun hb => ?_) ?_
    · exact hm.void_iff.2 (hvalue.void_iff.1 (by simpa [Expr.footprint] using hv))
    · rw [← hty] at hb
      obtain ⟨b, hb⟩ := Option.isSome_iff_exists.1 hb
      simp [Expr.footprint, Ty.ne_void_of_bank hb, hvalue.1, hb]
    · simp [Expr.footprint, ← hty, hvalue.1, Context.under, Bool.or_assoc]

theorem localVar_performs {id : LocalId} (hm : m.bank? = (c.types id).bank?) :
    (Expr.localVar m id).Performs t c m.byAddress := by
  have hty : (Expr.localVar m id).ty.bank? = (c.types id).bank? := hm
  obtain ⟨span, ty, byAddress⟩ := m
  cases byAddress with
  | false =>
    refine Expr.Performs.ofLowers (variable_lowers id) (by simp) (by simp) ?_
    simp [Expr.footprint, hty]
  | true =>
    exact Expr.Performs.ofFinds (variable_finds id hm) rfl (by simp) (by simp)
      (by simp)

theorem field_performs {object : Expr} (hx : object.Performs t c false)
    (hself : object.isSelf = true → c.kind ≠ .static) (hb : object.ty.bank? = some .pointer)
    (offset : Nat) (readonly : Bool) :
    (Expr.field m object offset readonly).Performs t c m.byAddress := by
  obtain ⟨span, ty, byAddress⟩ := m
  cases byAddress with
  | false =>
    refine Expr.Performs.ofLowers (field_lowers hx hself hb offset) (by simp)
      (by simp [Expr.footprint, hb]) ?_
    simp [Expr.footprint]
    rfl
  | true =>
    exact Expr.Performs.ofFinds (field_finds hx hself hb offset) rfl
      (by simp [Expr.footprint, hb]) (by simp [Expr.footprint])
      (by simp [Expr.footprint])

theorem element_performs {array index : Expr} {elem : Ty} {count : Nat}
    (hx : array.Performs t c true) (hy : index.Performs t c false)
    (harray : array.ty = .array elem count) (hindex : index.ty.bank? = some .int)
    (helem : elem.bank? = some b) (hm : m.bank? = some b) :
    (Expr.element m array index).Performs t c m.byAddress := by
  have hposition : index.constant?.isSome → (index.footprint c).effect = {} :=
    Expr.effect_of_constant hindex
  have hty : elem.bank? = (Expr.element m array index).ty.bank? := helem.trans hm.symm
  have hlower : (Expr.element m array index).lower =
      element m.byAddress (.array elem count) index.constant? array.lower index.lower := by
    rw [Expr.lower, harray]
  replace hx : Finds t c array.lower (array.localId?, .array elem count)
      ⟨true, array.writes, array.clashes⟩ := by
    have hx := hx
    simpa [Expr.Performs, harray] using hx
  obtain ⟨span, ty, byAddress⟩ := m
  cases byAddress with
  | false =>
    have hl := element_lowers hx hy hindex hposition
    refine Expr.Performs.ofLowers (hlower ▸ hl) (by simp) (by simp [Expr.footprint, hindex]) ?_
    simp [Expr.footprint, hty]
  | true =>
    have hr := element_finds hx hy hindex hposition
    exact Expr.Performs.ofFinds (hlower ▸ hr) hty (by simp [Expr.footprint, hindex])
      (by simp [Expr.footprint]) (by simp [Expr.footprint])

end Storage

theorem Settled.performs (h : Settled c byAddress e) (hk : t.kind = c.kind) :
    e.Performs t c byAddress := by
  induction h with
  | @constant c m value hty hbank =>
    obtain ⟨b, hb⟩ := Option.isSome_iff_exists.1 hbank
    have hm : (Expr.constant m value).ty.bank? = some b := by
      simp [Expr.ty, Expr.mark, hty, hb]
    refine .ofLowers (constant_lowers hb) (by simp) (by simp) ?_
    simp [Expr.footprint, hm]
  | cast _ hb htakes hm ih =>
    refine .ofValue hm (cast_lowers (ih hk) htakes hb) ?_ ⟨rfl, fun _ => rfl, rfl⟩
    rw [Expr.effect_footprint hb, Expr.writes, Expr.clashes]
  | intCast _ hb hm ih =>
    refine .ofValue hm (intCast_lowers (ih hk) _ hb) ?_ ⟨rfl, fun _ => rfl, rfl⟩
    rw [Expr.effect_footprint hb, Expr.writes, Expr.clashes]
  | classCast _ hb hm ih =>
    obtain ⟨b, hb⟩ := Option.isSome_iff_exists.1 hb
    refine .ofValue hm (classCast_lowers (ih hk) hb _) ?_ ⟨rfl, fun _ => rfl, rfl⟩
    rw [Expr.effect_footprint hb, Expr.writes, Expr.clashes]
  | minus _ hb hbank hm ih =>
    refine .ofValue hm (minus_lowers (ih hk) hbank hb) ?_ ⟨rfl, fun _ => rfl, rfl⟩
    rw [Expr.effect_footprint hb, Expr.writes, Expr.clashes]
  | complement hop _ hb hm ih =>
    refine .ofValue hm (complement_lowers (ih hk) hop hb) ?_ ⟨rfl, fun _ => rfl, rfl⟩
    rw [Expr.effect_footprint hb, Expr.writes, Expr.clashes]
  | binary _ _ hl hr hop hm _ ihl ihr =>
    refine .ofValue hm (binary_lowers (ihl hk) (ihr hk) hop hm hl hr ?_) ?_
      ⟨rfl, fun _ => rfl, rfl⟩
    · exact Expr.effect_of_constant hr
    · rw [Expr.effect_footprint hl, Expr.effect_footprint hr, Expr.writes, Expr.clashes,
        Expr.misreads_eq]
      simp [Effect.mk_append_mk, Expr.footprint]
  | logical _ _ hl hr hm ihl ihr =>
    refine .ofValue hm (logical_lowers (ihl hk) (ihr hk) _ hl hr) ?_
      ⟨rfl, fun _ => rfl, rfl⟩
    rw [Expr.effect_footprint hl, Expr.effect_footprint hr, Expr.writes, Expr.clashes]
    rfl
  | @conditional c m cond whenTrue whenFalse _ _ _ hcond htrue hfalse ihc iht ihf =>
    have hl := conditional_lowers (ihc hk) (iht hk) (ihf hk) hcond htrue.1 hfalse.1
    refine .ofLowers hl (fun hv => htrue.void_iff.1 (by simpa [Expr.footprint] using hv)) ?_ ?_
    · have hty : (Expr.conditional m cond whenTrue whenFalse).ty = m.ty.getD .error := rfl
      simp [Expr.footprint, hcond, htrue.1, hfalse.1, hty]
    · simp [Expr.footprint, Expr.ty, Expr.mark, Mark.bank?]
  | @selfRef c m hkind hm =>
    refine .ofLowers (selfPlace_lowers hk hkind) (by simp) (by simp) ?_
    simp [Expr.footprint, show (Expr.selfRef m).ty.bank? = _ from hm]
  | @invoke c m object function args _ hpointer _ hvoid hm _ iho iha =>
    have hcalls := invoke_calls hk (fun e he => iho e he hk) hpointer (fun e he => iha e he hk)
      (fun e he => (iha e he hk).valued (hvoid e he)) m function false
    refine .ofLowers hcalls.lowers (fun hv => ?_) (by simp) ?_
    · rw [List.isEmpty_iff.1 hv] at hm
      exact hm.void_iff.2 rfl
    · simp [Expr.footprint, Expr.ty, Expr.mark, hm.1]
  | @special c m number args _ hint hm ih =>
    exact .ofValue hm (special_calls hk (fun e he => ih e he hk) hint _).lowers
      (by simp [Expr.effectOf]) ⟨rfl, fun _ => rfl, rfl⟩
  | floatFn _ hb hm ih =>
    refine .ofValue hm (floatFn_lowers (ih hk) hb _) ?_ ⟨rfl, fun _ => rfl, rfl⟩
    rw [Expr.effect_footprint hb, Expr.writes, Expr.clashes]
  | random _ _ hlow hhigh hbank hm ihl ihh =>
    exact .ofValue hm (random_calls (ihl hk) (ihh hk) hbank hlow hhigh _).lowers
      (by simp [Expr.effectOf])
      ⟨rfl, fun _ => rfl, rfl⟩
  | random2 _ hb hm ih =>
    exact .ofValue hm (random2_calls (ih hk) hb _).lowers
      (by simp [Expr.effectOf])
      ⟨rfl, fun _ => rfl, rfl⟩
  | randomPick _ hb hbank hm ih =>
    exact .ofValue hm (randomPick_lowers (fun e he => ih e he hk) hb hbank _)
      (by simp [Expr.effectOf]) ⟨rfl, fun _ => rfl, rfl⟩
  | extremum hlength _ hb hbank hm ih =>
    have hne := List.ne_nil_of_length_pos (Nat.lt_of_lt_of_le Nat.two_pos hlength)
    exact .ofValue hm (extremum_lowers hbank hne (fun e he => ih e he hk) hb hm _)
      (by simp [Expr.effectOf]) ⟨rfl, fun _ => rfl, rfl⟩
  | abs _ hb hbank hm ih =>
    refine .ofValue hm (abs_lowers (ih hk) hbank hb) ?_ ⟨rfl, fun _ => rfl, rfl⟩
    rw [Expr.effect_footprint hb, Expr.writes, Expr.clashes]
  | atan2 _ _ hy hx hm ihy ihx =>
    refine .ofValue hm (atan2_lowers (ihy hk) (ihx hk) hy hx) ?_
      ⟨rfl, fun _ => rfl, rfl⟩
    rw [Expr.effect_footprint hy, Expr.effect_footprint hx, Expr.writes, Expr.clashes]
    rfl
  | runtimeState _ hb hm ih =>
    refine .ofValue hm (runtimeState_calls (ih hk) hb).lowers ?_ ⟨rfl, fun _ => rfl, rfl⟩
    rw [Expr.effect_footprint hb, Expr.writes, Expr.clashes]
  | stateLabel hm =>
    exact .ofValue hm (stateLabel_calls hk _).lowers (by simp)
      ⟨rfl, fun _ => rfl, rfl⟩
  | step _ hb hbank hm hplace ih => exact step_performs (ih hk) hb hbank hm hplace
  | assign _ _ hvalue hm iht ihv => exact assign_performs (iht hk) (ihv hk) hvalue hm
  | @assigned c m target htarget hm =>
    refine .ofLowers (assignedValue_lowers htarget hm) (by simp) (by simp) ?_
    simp [Expr.footprint, Expr.ty, Expr.mark, hm.1, htarget]
  | localVar hm => exact localVar_performs hm
  | field hobject hb _ ih => exact field_performs (ih hk) hobject.kind_of_isSelf hb _ _
  | element _ _ harray hindex helem _ hm iha ihi =>
    exact element_performs (iha hk) (ihi hk) harray hindex helem hm

/-- The code of a tree whose value is handed to the caller. -/
theorem Settled.ends (h : Settled c byAddress e) (hk : t.kind = c.kind) (htail : e.markTail ≠ e) :
    ∃ effect, effect.clashes = e.clashes ∧ Ends t c e.markTail.lower effect := by
  cases h with
  | @invoke _ m object function args hobject hpointer hargs hvoid hm _ =>
    have hcalls := invoke_calls hk (fun e he => (hobject e he).performs hk) hpointer
      (fun e he => (hargs e he).performs hk)
      (fun e he => ((hargs e he).performs hk).valued (hvoid e he)) m function false
    exact ⟨_, rfl, hcalls.ends⟩
  | @special _ m number args hargs hint hm =>
    have hcalls := special_calls hk (fun e he => (hargs e he).performs hk) hint number
    exact ⟨_, by simp [Expr.effectOf], hcalls.ends⟩
  | @random _ m float rng low high b hlow hhigh hl hh hbank hm =>
    have hcalls := random_calls (hlow.performs hk) (hhigh.performs hk) hbank hl hh rng
    exact ⟨_, by simp [Expr.effectOf], hcalls.ends⟩
  | @random2 _ m rng mask hmask hb hm =>
    have hcalls := random2_calls (hmask.performs hk) hb rng
    exact ⟨_, by simp [Expr.effectOf], hcalls.ends⟩
  | runtimeState hindex hb hm =>
    have hcalls := runtimeState_calls (hindex.performs hk) hb
    exact ⟨_, by simp [Expr.footprint], hcalls.ends⟩
  | stateLabel hm => exact ⟨_, by simp, (stateLabel_calls hk _).ends⟩
  | _ => exact absurd rfl htail

end Trees

end ActorScript
