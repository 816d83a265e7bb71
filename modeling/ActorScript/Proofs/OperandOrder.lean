import ActorScript.Proofs.Compiled

/-! # Operands are evaluated from left to right

An operator reads its first operand from the register where the code of that operand left it.
The code of the second operand comes in between. It leaves the register alone, unless it is the
register of a variable that the second operand assigns to or steps: variables are not copied.
-/

namespace ActorScript

open Lowering

/-- The two operands that are lowered, one after the other, before they are combined. A constant
shift amount goes into the instruction. -/
def Expr.operandPair? : Expr → Option (Expr × Expr)
  | .binary _ op left right =>
      match op with
      | .shl | .shr | .ushr => if right.isConstant then none else some (left, right)
      | _ => some (left, right)
  | .atan2 _ y x => some (y, x)
  | _ => none

def Place.register? (p : Place) : Option Register :=
  if p.isConstant then none else p.bank?.map (·, p.number)

/-- The second operand assigns to the variable whose register the first one is left in. -/
def Expr.overwrittenBy (c : Context) (first second : Expr) : Prop :=
  ∃ v ∈ second.writes, first.holder? (c.target.bind (·.1)) = some v

instance (c : Context) (first second : Expr) : Decidable (first.overwrittenBy c second) :=
  inferInstanceAs (Decidable (∃ v ∈ second.writes, _ = some v))

section

variable {t : Target} {c : Context} {d d1 d2 : Draft} {p q : Place}

theorem Draft.Home.unique {v : LocalId} {r r' : Register} (h : d.Home v r) (h' : d.Home v r') :
    r = r' := by
  obtain ⟨place, hplace, hbank, hnumber⟩ := h
  obtain ⟨place', hplace', hbank', hnumber'⟩ := h'
  cases hplace.symm.trans hplace'
  exact Prod.ext (Option.some.inj (hbank.symm.trans hbank')) (hnumber.symm.trans hnumber')

/-- Code added while a value is held writes the register of the value exactly if it assigns to
the variable that the value is left in. -/
theorem Leaves.overwritten_iff {f g : Footprint} (hd : Sound c d) (hp : Leaves f d p d1)
    (hself : f.isSelf = true → c.kind ≠ .static) (hq : Leaves g d1 q d2)
    (hbanked : g.effect.banked = true) {r : Register} (hr : p.register? = some r) :
    (∃ i ∈ d1.since d2, i.target? = some r) ↔ ∃ v ∈ g.effect.writes, f.holder? = some v := by
  obtain ⟨hconst, b, hb, rfl⟩ : p.isConstant = false ∧ ∃ b, p.bank? = some b ∧ r = (b, p.number) := by
    unfold Place.register? at hr
    split at hr
    next => cases hr
    next hconst =>
      obtain ⟨b, hb, rfl⟩ := Option.map_eq_some_iff.1 hr
      exact ⟨by simpa using hconst, b, hb, rfl⟩
  have hhome {v : LocalId} {r : Register} : d1.Home v r ↔ d.Home v r :=
    Draft.home_iff hp.surroundings
  constructor
  · rintro ⟨i, hi, htarget⟩
    -- The register is in use, so that only the home of a variable that is written comes about.
    obtain ⟨v, hv, hv'⟩ := hq.spares hbanked i hi _ htarget (hp.inUse hd hself hconst hb)
    have hv' := hhome.1 hv'
    cases hh : f.holder? with
    | none => exact absurd hv' (hp.apart hd hself hconst hh hb v)
    | some v' =>
      obtain ⟨-, -, b', hb', hholder⟩ := hp.holder v' hh
      cases hb.symm.trans hb'
      exact ⟨v, hv, by rw [hd.apart v v' _ hv' hholder]⟩
  · rintro ⟨v, hv, hh⟩
    obtain ⟨-, -, b', hb', hholder⟩ := hp.holder v hh
    cases hb.symm.trans hb'
    obtain ⟨i, hi, r, htarget, hr⟩ := hq.writes v hv
    exact ⟨i, hi, by rw [htarget, (hhome.1 hr).unique hholder]⟩

theorem yields_binary {op : BinOp} {ty leftTy rightTy : Ty} {amount : Option Constant}
    {left right : Lowering Place} [Safe left] [Safe right]
    (hamount : op = .shl ∨ op = .shr ∨ op = .ushr → amount = none)
    (h : Yields t (Lowering.binary op ty leftTy rightTy amount left right) d p d2) :
    ∃ l d1 r d', Yields t left d l d1 ∧ Yields t right d1 r d' := by
  cases op
  all_goals first
    | obtain rfl := hamount (by simp)
      simp only [Lowering.binary, shift, yields_steps] at h
      obtain ⟨l, d1, hl, r, d', hr, -⟩ := h
      exact ⟨l, d1, r, d', hl, hr⟩
    | simp only [Lowering.binary, arithmetic, order, equality, threeWay, bitwise, yields_bind] at h
      obtain ⟨l, d1, hl, r, d', hr, -⟩ := h
      exact ⟨l, d1, r, d', hl, hr⟩

theorem Expr.operandPair?_binary {m : Mark} {op : BinOp} {left right first second : Expr}
    (h : (Expr.binary m op left right).operandPair? = some (first, second)) :
    (first = left ∧ second = right) ∧
      (op = .shl ∨ op = .shr ∨ op = .ushr → right.constant? = none) := by
  cases hright : right.constant? <;> cases op <;>
    simp_all [Expr.operandPair?, Expr.isConstant]

/-- The register of the first operand, while the code of the second one is added. It is loaded
first if the operand is a constant that has to be in a register. -/
theorem Settled.overwritten_iff {first second : Expr} (hfirst : Settled c false first)
    (hsecond : Settled c false second) (hbank : second.ty.bank?.isSome) (hk : t.kind = c.kind)
    (hd : Sound c d) {l r : Place} {d3 : Draft} (hl : Yields t first.lower d l d1)
    (hq : q = l ∧ d2 = d1 ∨ Yields t (toRegister l) d1 q d2) (hr : Yields t second.lower d2 r d3)
    {reg : Register} (hreg : q.register? = some reg) :
    (∃ i ∈ d2.since d3, i.target? = some reg) ↔ first.overwrittenBy c second := by
  have hfirst' := hfirst.performs hk d l d1 hd hl
  obtain ⟨f, hholder, hself, hleaves⟩ : ∃ f : Footprint, f.holder? = (first.footprint c).holder? ∧
      f.isSelf = first.isSelf ∧ Leaves f d q d2 := by
    rcases hq with ⟨rfl, rfl⟩ | hq
    · exact ⟨first.footprint c, rfl, rfl, hfirst'⟩
    · exact ⟨{ first.footprint c with isPooled := false }, rfl, rfl, hfirst'.toRegister hq⟩
  have hsecond' := hsecond.performs hk d2 r d3 (hd.work hleaves.toWork) hr
  have hiff := hleaves.overwritten_iff hd (fun h => hfirst.kind_of_isSelf (hself ▸ h)) hsecond'
    (by simpa [Expr.footprint] using hbank) hreg
  rw [hiff, hholder]
  rfl

/-- Between the two operands of an operator, the register that the first one was left in is
written exactly if the second one assigns to the variable in that register. -/
theorem second_operand_overwrites_iff {e first second : Expr} {byAddress : Bool}
    (he : Settled c byAddress e) (hpair : e.operandPair? = some (first, second))
    (hk : t.kind = c.kind) (hd : Sound c d) {p : Place} {d' : Draft}
    (hrun : Yields t e.lower d p d') :
    ∃ l d₁ q d₂ r d₃, Yields t first.lower d l d₁ ∧
      (q = l ∧ d₂ = d₁ ∨ Yields t (toRegister l) d₁ q d₂) ∧ Yields t second.lower d₂ r d₃ ∧
      ∀ reg, q.register? = some reg →
        ((∃ i ∈ d₂.since d₃, i.target? = some reg) ↔ first.overwrittenBy c second) := by
  cases he with
  | binary hleft hright _ hb =>
    obtain ⟨⟨rfl, rfl⟩, hamount⟩ := Expr.operandPair?_binary hpair
    rw [Expr.lower] at hrun
    obtain ⟨l, d₁, r, d₃, hl, hr⟩ := yields_binary hamount hrun
    exact ⟨l, d₁, l, d₁, r, d₃, hl, .inl ⟨rfl, rfl⟩, hr, fun reg hreg =>
      hleft.overwritten_iff hright (by simp [hb]) hk hd hl (.inl ⟨rfl, rfl⟩) hr hreg⟩
  | atan2 hy hx _ hb =>
    cases hpair
    simp only [Expr.lower, Lowering.atan2, yields_steps] at hrun
    obtain ⟨l, d₁, hl, q, d₂, hq, r, d₃, hr, -⟩ := hrun
    exact ⟨l, d₁, q, d₂, r, d₃, hl, .inr hq, hr, fun reg hreg =>
      hy.overwritten_iff hx (by simp [hb]) hk hd hl (.inr hq) hr hreg⟩
  | _ => cases hpair

end

/-- A variable and an assignment to it, as the operands of a sum. -/
def Expr.sumOverAssignment : Expr :=
  let int : Mark := { span := ⟨0, 0⟩, ty := some .int }
  .binary int .add (.localVar int 0)
    (.assign int (.localVar { int with byAddress := true } 0) (.constant int (.int 1)))

theorem sumOverAssignment_settled {c : Context} (h : c.types 0 = .int) :
    Settled c false Expr.sumOverAssignment := by
  have hbank : Ty.int.bank? = (c.types 0).bank? := by rw [h]
  refine .binary ?_ ?_ rfl rfl rfl rfl (by simp [Expr.isConstant, Expr.constant?])
  · exact .localVar (m := { span := ⟨0, 0⟩, ty := some .int }) hbank
  · refine .assign (m := { span := ⟨0, 0⟩, ty := some .int }) ?_ (.constant rfl rfl) (.refl _) (.refl _)
    exact .localVar (m := { span := ⟨0, 0⟩, ty := some .int, byAddress := true }) hbank

theorem second_operand_overwrites_variable :
    let t : Target := ⟨{}, .static⟩
    let c : Context := .ofBody {} {} { locals := #[⟨"x", .int, true⟩] }
    let x : Expr := .localVar { span := ⟨0, 0⟩, ty := some .int } 0
    ∃ d p d' second, Sound c d ∧ Yields t Expr.sumOverAssignment.lower d p d' ∧
      Expr.sumOverAssignment.operandPair? = some (x, second) ∧ x.overwrittenBy c second ∧
      ∃ l d₁ q d₂ r d₃, Yields t x.lower d l d₁ ∧
        (q = l ∧ d₂ = d₁ ∨ Yields t (toRegister l) d₁ q d₂) ∧ Yields t second.lower d₂ r d₃ ∧
        ∀ reg, q.register? = some reg →
          ((∃ i ∈ d₂.since d₃, i.target? = some reg) ↔ x.overwrittenBy c second) := by
  intro t c x
  have hparams : Yields t (bindParams [(0, .int)]) (Draft.start "Anonymous" .static 1) ()
      (lowerFor {} {} 1 (bindParams [(0, .int)])).2 :=
    yields_lowerFor (w := {}) (o := {}) (by decide +kernel)
  have hd := (bindParams_performs (c := c) rfl (by simp [c, Context.ofBody, Scope.typeOf]) _ _ _
    (Draft.start_sound _ 1 rfl) hparams).sound
  have hrun : Yields t Expr.sumOverAssignment.lower (lowerFor {} {} 1 (bindParams [(0, .int)])).2
      _ _ := ⟨rfl, by decide +kernel⟩
  exact ⟨_, _, _, _, hd, hrun, rfl, by decide +kernel,
    second_operand_overwrites_iff (sumOverAssignment_settled rfl) rfl rfl hd hrun⟩

/-- The sum reads register 0 after the assignment has written it. -/
theorem assigned_operand_read_late :
    instructionsOf {} {} "int x; x + (x = 1);" = some
      [.asbx .li (.reg (some .int) 0) 0,
        .abx (.lk .int) (.reg (some .int) 0) (.pool (some .int) 0),
        .abc (.commuting .add true) (.reg (some .int) 1) (.reg (some .int) 0) (.pool (some .int) 0),
        .abc .ret (.imm finalReturn) (.imm Place.nil.tag) (.imm 0)] := by
  decide +kernel

end ActorScript
