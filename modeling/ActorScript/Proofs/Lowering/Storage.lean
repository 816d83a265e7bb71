import ActorScript.Proofs.Lowering.Operators

/-! # Code of variables, fields and elements

Left sides of assignments are lowered to the place that is written: the register of a variable,
or a pointer into memory.
-/

namespace ActorScript

variable {ty elem : Ty} {b : Bank} {indexed byAddress : Bool} {target : Option LocalId × Ty}
  {d d' : Draft} {p : Place} {held : Set Register} {v : LocalId} {z count : Nat} {index : Int32}

open Lowering

/-! ## Cells of memory -/

theorem bank_ofTy (h : ty.bank? = some b) : (Load.ofTy ty).bank = b ∧ (Store.ofTy ty).bank = b := by
  cases ty
  case integer kind => cases kind <;> cases h <;> exact ⟨rfl, rfl⟩
  case floating kind => cases kind <;> cases h <;> exact ⟨rfl, rfl⟩
  all_goals
    cases h
    try exact ⟨rfl, rfl⟩

section Cells

variable {ty : Ty} {b : Bank} {n m z : Nat}

theorem fits_load (h : ty.bank? = some b) : Instr.fits (.abc (.load (.ofTy ty) false)
    (.reg (some b) n) (.reg (some .pointer) m) (.pool (some .int) z)) = true := by
  simp [Instr.fits, Instr.fitsThree, (bank_ofTy h).1]

theorem fits_loadIndexed (h : ty.bank? = some b) : Instr.fits (.abc (.load (.ofTy ty) true)
    (.reg (some b) n) (.reg (some .pointer) m) (.reg (some .int) z)) = true := by
  simp [Instr.fits, Instr.fitsThree, (bank_ofTy h).1]

theorem target?_load (h : ty.bank? = some b) {base offset : Operand} :
    Instr.target? (.abc (.load (.ofTy ty) indexed) (.reg (some b) n) base offset) =
      some (b, n) := by
  simp [Instr.target?, (bank_ofTy h).1]

theorem fits_store (h : ty.bank? = some b) : Instr.fits (.abc (.store (.ofTy ty) false)
    (.reg (some .pointer) m) (.reg (some b) n) (.pool (some .int) z)) = true := by
  simp [Instr.fits, Instr.fitsThree, (bank_ofTy h).2]

@[simp]
theorem target?_store {cell : Store} {base value offset : Operand} :
    Instr.target? (.abc (.store cell indexed) base value offset) = none := rfl

end Cells

/-! ## Left sides of assignments -/

/-- The code of the left side of an assignment was added to a draft. -/
structure Reaches (target : Option LocalId × Ty) (e : Effect) (d : Draft) (p : Place)
    (d' : Draft) : Prop extends Work d p.owned e d' where
  isTarget : d'.IsTarget target p
  isFixed : target.1.isSome → p.isFixed = true

/-- Lowering the left side of an assignment finds the variable or the cell. -/
def Finds (t : Target) (c : Context) (x : Lowering Place) (target : Option LocalId × Ty)
    (e : Effect) : Prop :=
  ∀ d p d', Sound c d → Yields t x d p d' → Reaches target e d p d'

theorem Draft.IsTarget.work (h : d.IsTarget target p) {e : Effect} (hw : Work d held e d') :
    d'.IsTarget target p where
  __ := h
  ofVariable v hv := by
    obtain ⟨b, hb, hty, hhome⟩ := h.ofVariable v hv
    exact ⟨b, hb, hty, (Draft.home_iff hw.surroundings).2 hhome⟩
  inMemory hnone := ⟨(h.inMemory hnone).1, (hw.live _).2 (.inl (h.inMemory hnone).2)⟩

theorem Draft.IsTarget.variable (h : d.IsTarget (some v, ty) p) (hb : ty.bank? = some b) :
    p.bank? = some b ∧ p.operand = .reg (some b) p.number ∧ d.Home v (b, p.number) := by
  obtain ⟨b', hb', hty, hhome⟩ := h.ofVariable v rfl
  cases hb.symm.trans hty
  exact ⟨hb', by simp [Place.operand, h.register, hb'], hhome⟩

theorem Draft.IsTarget.memory (h : d.IsTarget (none, ty) p) :
    p.operand = .reg (some .pointer) p.number := by
  simp [Place.operand, h.register, (h.inMemory rfl).1]

/-! ## Variables -/

section Variables

variable {t : Target} {c : Context}

theorem yields_home : Yields t (home v) d p d' ↔ d.homes[v]? = some (some p) ∧ d' = d := by
  simp only [home, yields_getDraft_bind]
  split
  next place h => simp [h, eq_comm]
  next h =>
    simp only [not_yields_unresolved, false_iff, not_and]
    intro hp
    exact absurd hp (h p)

theorem yields_variable (hd : Sound c d)
    (h : Yields t (do
      let place ← home v
      return { place with isVariable := byAddress }) d p d') :
    d' = d ∧ ∃ b n, (c.types v).bank? = some b ∧ d.Home v (b, n) ∧ (b, n) ∈ d.live ∧
      p = { Place.fixed (some b) n with isVariable := byAddress } := by
  simp only [yields_bind, yields_home, yields_pure] at h
  obtain ⟨place, _, ⟨hplace, rfl⟩, rfl, rfl⟩ := h
  obtain ⟨b, n, rfl, hty, hlive⟩ := hd.home v place hplace
  exact ⟨rfl, b, n, hty, ⟨_, hplace, rfl, rfl⟩, hlive, rfl⟩

theorem variable_lowers (v : LocalId) :
    Lowers t c (do
      let place ← home v
      return { place with isVariable := false })
      { bank? := (c.types v).bank?, holder? := some v, effect := {} } := by
  intro d p d' hd h
  obtain ⟨rfl, b, n, hty, hhome, hlive, rfl⟩ := yields_variable hd h
  rw [hty]
  exact Leaves.ofHome (Work.refl d') rfl rfl ⟨rfl, rfl⟩ rfl hhome

theorem variable_finds (v : LocalId) (hty : ty.bank? = (c.types v).bank?) :
    Finds t c (do
      let place ← home v
      return { place with isVariable := true }) (some v, ty) {} := by
  intro d p d' hd h
  obtain ⟨rfl, b, n, hbank, hhome, hlive, rfl⟩ := yields_variable hd h
  exact {
    toWork := by
      rw [Place.owned_of_fixed rfl]
      exact Work.refl d'
    isTarget :=
      { register := rfl
        plain := rfl
        isVariable := rfl
        ofVariable := fun v' hv' => by
          cases hv'
          exact ⟨b, rfl, hty.trans hbank, hhome⟩
        inMemory := by simp }
    isFixed := fun _ => rfl }

/-! ### Steps -/

/-- An operation and its second operand move values of a bank. -/
structure Moves (b : Bank) (pools : Pools) (step : Op × Operand) : Prop where
  fits : ∀ n m, (Instr.abc step.1 (.reg (some b) n) (.reg (some b) m) step.2).fits = true
  target : ∀ n m, (Instr.abc step.1 (.reg (some b) n) (.reg (some b) m) step.2).target? = some (b, n)
  within : step.2.Within pools

theorem stepBy_moves {op : StepOp} {step : Op × Operand} (hb : b = .int ∨ b = .float)
    (h : Yields t (stepBy op (some b)) d step d') :
    Moves b d'.pools step ∧ ∃ entry, d' = d.store entry := by
  rcases hb with rfl | rfl <;> cases op <;>
    simp only [stepBy, Option.some.injEq, reduceCtorEq, if_false, if_true, yields_bind,
      yields_pooledInt, yields_floatConstant, yields_pure] at h <;>
    obtain ⟨_, _, ⟨rfl, rfl⟩, rfl, rfl⟩ := h
  all_goals exact ⟨⟨fun _ _ => rfl, fun _ _ => rfl, d.within_store _⟩, _, rfl⟩

theorem Reaches.trans {e e' : Effect} {d1 d2 : Draft} (h : Reaches target e d p d1)
    (hw : Work d1 ∅ e' d2) : Reaches target (e ++ e') d p d2 where
  toWork := (h.toWork.trans hw).cast (Set.union_empty _) id rfl rfl
  isTarget := h.isTarget.work hw
  isFixed := h.isFixed

section Steps

variable {e : Effect} {ty : Ty} {b : Bank} {step : Op × Operand} {d d1 d' : Draft}
  {place p : Place} {v : LocalId}

theorem Work.move (hw : Work d held e d1) (hstep : Moves b d1.pools step)
    (hoperand : place.operand = .reg (some b) place.number) (hhome : d.Home v (b, place.number)) :
    Work d held (e ++ ⟨true, [v], false⟩)
      (d1.push (.abc step.1 place.operand place.operand step.2)) := by
  rw [hoperand]
  have hw := hw.push (k := true) (w := [v])
    (i := .abc step.1 (.reg (some b) place.number) (.reg (some b) place.number) step.2)
    (by simpa using hstep.within) (fun _ r hr => .inr ⟨v, by simp, ?_⟩) ?_
    (by simp [Instr.proceeds_of_target (hstep.target _ _)])
  · rwa [hstep.fits] at hw
  · rw [hstep.target, Option.some.injEq] at hr
    exact hr ▸ hhome
  · simpa [Draft.Writes, hstep.target] using hhome

theorem stepVariable_before (hr : Reaches (some v, ty) e d place d1) (hb : ty.bank? = some b)
    (hstep : Moves b d1.pools step)
    (h : Yields t (stepVariable step true byAddress (some b) place) d1 p d') :
    p = { place with isVariable := byAddress } ∧ Work d p.owned (e ++ ⟨true, [v], false⟩) d' ∧
      d.Home v (b, place.number) := by
  obtain ⟨hbank, hoperand, hhome⟩ := hr.isTarget.variable hb
  have hhome := (Draft.home_iff hr.surroundings).1 hhome
  simp only [stepVariable, if_true, yields_steps] at h
  obtain ⟨-, rfl, rfl⟩ := h
  exact ⟨rfl, hr.toWork.move hstep hoperand hhome, hhome⟩

theorem stepVariable_after (hr : Reaches (some v, ty) e d place d1)
    (hb : ty.bank? = some b) (hstep : Moves b d1.pools step)
    (h : Yields t (stepVariable step false false (some b) place) d1 p d') :
    Leaves { bank? := some b, effect := e ++ ⟨true, [v], false⟩ } d p d' := by
  obtain ⟨hbank, hoperand, hhome⟩ := hr.isTarget.variable hb
  have hhome := (Draft.home_iff hr.surroundings).1 hhome
  simp only [stepVariable, Bool.false_eq_true, if_false, yields_steps, yields_alloc] at h
  obtain ⟨_, _, ⟨_, n, hb', offered, rfl, rfl⟩, -, -, rfl, rfl⟩ := h
  cases hb'
  have hw := hr.toWork.take offered
  rw [Place.owned_of_fixed (hr.isFixed rfl), Set.empty_union] at hw
  have hfills := hw.fills ((Draft.starts_push _ (.abc (.moveOf (some b)) (.reg (some b) n)
    place.operand (.imm 0))).push (.abc step.1 place.operand place.operand step.2)) rfl
  have hw := hw.emit (i := .abc (.moveOf (some b)) (.reg (some b) n) place.operand (.imm 0))
    (by simp [Instr.fits, Instr.fitsThree, Op.moveOf, hoperand]) (by simp [hoperand])
    (by simp [Instr.target?, Op.moveOf]) rfl
  exact Leaves.ofFresh (hw.move hstep hoperand hhome) hfills

theorem Work.moveCell (hw : Work d held e d1) (hb : ty.bank? = some b)
    (hstep : Moves b d1.pools step) (hoperand : place.operand = .reg (some .pointer) place.number)
    {n m : Nat} (hz : z < d1.pools.size .int) (hn : (b, n) ∈ held) :
    Work d held e ((d1.push (.abc step.1 (.reg (some b) n) (.reg (some b) m) step.2)).push
      (.abc (.store (.ofTy ty) false) place.operand (.reg (some b) n) (.pool (some .int) z))) := by
  refine hw.emitAll [_, _] ?_ ?_ ?_ ?_
  · simp [hstep.fits, hoperand, fits_store hb]
  · simpa [hoperand, hz] using hstep.within
  · simpa [hstep.target] using hn
  · rw [flowing, Instr.proceeds_of_target (hstep.target _ _)]
    rfl

theorem Work.loadCell (hw : Work d held e d1) (hb : ty.bank? = some b)
    (hoperand : place.operand = .reg (some .pointer) place.number) {n : Nat}
    (offered : d1.Offers b n) (hz : z < d1.pools.size .int) :
    Work d (held ∪ {(b, n)}) e ((d1.take b n).push (.abc (.load (.ofTy ty) false) (.reg (some b) n)
      place.operand (.pool (some .int) z))) :=
  (hw.take offered).emit (by rw [hoperand, fits_load hb]) (by simpa [hoperand] using hz)
    (by simp [target?_load hb]) rfl

section Cells

variable (hr : Reaches (none, ty) e d place d1) (hb : ty.bank? = some b)
  (hstep : Moves b d1.pools step) (hz : z < d1.pools.size .int)

include hr hb hstep hz

theorem stepCell_before
    (h : Yields t (stepCell step (.pool (some .int) z) true false ty place) d1 p d') :
    Leaves { bank? := some b, effect := e } d p d' := by
  have hoperand := hr.isTarget.memory
  simp only [stepCell, Bool.false_eq_true, if_false, if_true, yields_steps, yields_alloc] at h
  obtain ⟨_, _, ⟨_, n, hb', offered, rfl, rfl⟩, -, -, -, -, rfl, rfl⟩ := h
  cases hb.symm.trans hb'
  have hw := hr.toWork.loadCell hb hoperand offered hz
  have hw := (hw.moveCell (n := n) (m := n) hb hstep hoperand hz (by simp)).drop hr.fresh
  exact Leaves.ofFresh (hw.cast (hr.toWork.owned_sdiff offered) id rfl rfl) (Draft.fills_drop.2
    ((hr.toWork.take offered).fills (.push (.push (Draft.starts_push _ _) _) _) (target?_load hb)))

theorem stepCell_place
    (h : Yields t (stepCell step (.pool (some .int) z) true true ty place) d1 p d') :
    Reaches (none, ty) e d p d' := by
  have hoperand := hr.isTarget.memory
  simp only [stepCell, if_true, yields_steps, yields_alloc] at h
  obtain ⟨_, _, ⟨_, n, hb', offered, rfl, rfl⟩, -, -, -, -, rfl, rfl⟩ := h
  cases hb.symm.trans hb'
  have hw := (Work.refl d1).loadCell hb hoperand offered hz
  have hw := (hw.moveCell (n := n) (m := n) hb hstep hoperand hz (by simp)).drop
    (p := .fresh b n) (by simpa [Place.owned_fresh] using offered.not_live)
  have hw : Work d1 ∅ {} _ := hw.cast (by ext r; simp [Place.owned_fresh]) id rfl rfl
  simpa using hr.trans hw

theorem stepCell_after
    (h : Yields t (stepCell step (.pool (some .int) z) false false ty place) d1 p d') :
    Leaves { bank? := some b, effect := e } d p d' := by
  have hoperand := hr.isTarget.memory
  simp only [stepCell, Bool.false_eq_true, if_false, yields_steps, yields_alloc] at h
  obtain ⟨_, _, ⟨_, n, hb', offered, rfl, rfl⟩, -, _, _, ⟨_, m, hb'', offered', rfl, rfl⟩, -, -, -,
    -, rfl, rfl⟩ := h
  cases hb.symm.trans hb'
  cases hb.symm.trans hb''
  have hw := hr.toWork.loadCell hb hoperand offered hz
  have hlive := hw.live
  have hw := hw.take offered'
  have hm : (b, m) ∉ d.live := hw.fresh _ (by simp)
  have hw := ((hw.moveCell (n := m) (m := n) hb hstep hoperand hz (by simp)).drop hr.fresh).drop
    (p := .fresh b m) (by simpa [Place.owned_fresh] using hm)
  refine Leaves.ofFresh (Work.cast hw ?_ id rfl rfl) (Draft.fills_drop.2 (Draft.fills_drop.2
    ((hr.toWork.take offered).fills (.push (.push (.take (Draft.starts_push _ _) _ _) _) _)
      (target?_load hb))))
  have hn : (b, n) ∉ place.owned := fun hx => offered.not_live ((hr.live _).2 (.inr hx))
  have hne : (b, n) ≠ (b, m) := fun heq => offered'.not_live (heq ▸ (hlive _).2 (by simp))
  ext r
  simp only [Place.owned_fresh, Set.mem_sdiff, Set.mem_union, Set.mem_singleton_iff]
  grind

end Cells

variable {x : Lowering Place} [Safe x] {target : Option LocalId × Ty} {op : StepOp}

variable (hx : Finds t c x target e) (hb : target.2.bank? = some b)
  (hnumber : b = .int ∨ b = .float)

include hx hb hnumber

theorem yields_step (hd : Sound c d) {before : Bool}
    (h : Yields t (Lowering.step op before byAddress target.2 x) d p d') :
    ∃ place step d1 z, Reaches target e d place d1 ∧ Moves b d1.pools step ∧
      z < d1.pools.size .int ∧
      Yields t (if target.1.isSome then stepVariable step before byAddress (some b) place
        else stepCell step (.pool (some .int) z) before byAddress target.2 place) d1 p d' := by
  simp only [Lowering.step, yields_steps, hb] at h
  obtain ⟨place, d1, hplace, step, d2, hstep, h⟩ := h
  obtain ⟨hmoves, entry, rfl⟩ := stepBy_moves hnumber hstep
  have hr := hx d place d1 hd hplace
  have hw := ((Work.refl d1).store entry).store (.int 0)
  rw [hr.isTarget.isVariable] at h
  refine ⟨place, step, _, _, by simpa using hr.trans hw, ⟨hmoves.fits, hmoves.target, ?_⟩, ?_, h⟩
  · exact hmoves.within.grow (Draft.grow_store _ _)
  · exact Draft.indexOf_lt _ (.int 0)

theorem stepBefore_lowers (op : StepOp) :
    Lowers t c (Lowering.step op true false target.2 x)
      { bank? := target.2.bank?, holder? := target.1
        effect := e ++ ⟨true, target.1.toList, false⟩ } := by
  intro d p d' hd h
  obtain ⟨place, step, d1, z, hr, hmoves, hz, h⟩ := yields_step hx hb hnumber hd h
  obtain ⟨v?, ty⟩ := target
  rw [hb]
  cases v? with
  | none => simpa using stepCell_before hr hb hmoves hz h
  | some v =>
    obtain ⟨rfl, hw, hhome⟩ := stepVariable_before hr hb hmoves h
    obtain ⟨hbank, -, -⟩ := hr.isTarget.variable hb
    have hw := hw.cast (Place.owned_of_fixed (hr.isFixed rfl)) id rfl rfl
    exact Leaves.ofHome hw hr.isTarget.register (hr.isFixed rfl) ⟨hr.isTarget.plain, rfl⟩ hbank hhome

theorem stepBefore_finds (op : StepOp) :
    Finds t c (Lowering.step op true true target.2 x) target
      (e ++ ⟨true, target.1.toList, false⟩) := by
  intro d p d' hd h
  obtain ⟨place, step, d1, z, hr, hmoves, hz, h⟩ := yields_step hx hb hnumber hd h
  obtain ⟨v?, ty⟩ := target
  cases v? with
  | none => simpa using stepCell_place hr hb hmoves hz h
  | some v =>
    obtain ⟨rfl, hw, hhome⟩ := stepVariable_before hr hb hmoves h
    obtain ⟨hbank, -, -⟩ := hr.isTarget.variable hb
    exact {
      toWork := hw
      isTarget :=
        { register := hr.isTarget.register
          plain := hr.isTarget.plain
          isVariable := rfl
          ofVariable := fun v' hv' => by
            cases hv'
            exact ⟨b, hbank, hb, (Draft.home_iff hw.surroundings).2 hhome⟩
          inMemory := by simp }
      isFixed := fun _ => hr.isFixed rfl }

theorem stepAfter_lowers (op : StepOp) :
    Lowers t c (Lowering.step op false false target.2 x)
      { bank? := target.2.bank?, effect := e ++ ⟨true, target.1.toList, false⟩ } := by
  intro d p d' hd h
  obtain ⟨place, step, d1, z, hr, hmoves, hz, h⟩ := yields_step hx hb hnumber hd h
  obtain ⟨v?, ty⟩ := target
  rw [hb]
  cases v? with
  | none => simpa using stepCell_after hr hb hmoves hz h
  | some v => exact stepVariable_after hr hb hmoves h

end Steps

end Variables

/-! ## Assignments -/

namespace Draft

def under (d : Draft) (place : Place) : Draft :=
  { d with assigned := place :: d.assigned }

def leave (d : Draft) : Draft :=
  { d with assigned := d.assigned.tail }

end Draft

section Assignments

variable {t : Target} {c : Context} {x y : Lowering Place} [Safe x] [Safe y] {e : Effect}
  {f : Footprint} {target : Option LocalId × Ty} {d d1 d' : Draft} {place p : Place}

omit [Safe x] in
@[simp]
theorem yields_withAssigned : Yields t (withAssigned place y) d p d' ↔
    ∃ d1, Yields t y (d.under place) p d1 ∧ d' = d1.leave := by
  simp only [withAssigned, yields_bind, yields_modifyAssigned, yields_pure]
  constructor
  · rintro ⟨_, _, rfl, _, d1, hy, _, _, rfl, rfl, rfl⟩
    exact ⟨d1, hy, rfl⟩
  · rintro ⟨d1, hy, rfl⟩
    exact ⟨(), _, rfl, p, d1, hy, (), _, rfl, rfl, rfl⟩

theorem Sound.under (hd : Sound c d) (ht : d.IsTarget target place) :
    Sound { c with target := some target } (d.under place) where
  __ := hd
  target := by
    rintro _ ⟨⟩
    exact ⟨place, d.assigned, rfl, ht.register, ht.plain, ht.isVariable, ht.ofVariable, ht.inMemory⟩

theorem Leaves.leave (h : Leaves f (d.under place) p d1) : Leaves f d p d1.leave where
  __ := h
  surroundings := by
    have := h.surroundings
    simp only [Draft.surroundings, Draft.under, Prod.mk.injEq] at this
    simp [Draft.surroundings, Draft.leave, this]

section Assigned

variable (hx : Finds t c x target e) (hy : Lowers t { c with target := some target } y f)
  (hf : f.bank? = target.2.bank?)

include hx hy hf

theorem yields_assignment (hd : Sound c d) (h : Yields t (assignment byAddress target.2 x y) d p d') :
    ∃ place d1 stored d2, Reaches target e d place d1 ∧
      Leaves { f with
        isPooled := target.1.isSome && f.isPooled
        effect := f.effect ++ ⟨f.bank?.isSome, target.1.toList, f.bank?.isNone⟩ } d1 stored d2 ∧
      Yields t (if byAddress then do
          stored.free
          pure place
        else do
          place.free
          pure stored) d2 p d' := by
  simp only [assignment, yields_bind, yields_withAssigned] at h
  obtain ⟨place, d1, hplace, stored, _, ⟨d2, hstored, rfl⟩, h⟩ := h
  have hr := hx d place d1 hd hplace
  have hl := (hy _ stored d2 ((hd.work hr.toWork).under hr.isTarget) hstored).leave
  refine ⟨place, d1, ?_⟩
  obtain ⟨v?, ty⟩ := target
  rw [hr.isTarget.isVariable] at h
  cases v? with
  | none =>
    simp only [Option.isSome_none, Bool.false_eq_true, if_false, yields_bind, yields_pooledInt,
      yields_emit, yields_pure] at h
    obtain ⟨_, d3, hreg, _, _, ⟨rfl, rfl⟩, _, _, ⟨-, rfl⟩, stored', _, ⟨rfl, rfl⟩, h⟩ := h
    have hl := hl.toRegister hreg
    refine ⟨_, _, hr, hl.update rfl ?_ (by simp), h⟩
    have hplace := hr.isTarget.memory
    have hzero := d3.indexOf_lt (.int 0)
    have hw := (hl.toWork.store (.int 0)).push (k := f.bank?.isSome) (w := [])
      (i := .abc (.store (.ofTy ty) false) place.operand stored'.operand
        (.pool (some .int) (d3.indexOf (.int 0))))
      (by simpa [hplace] using ⟨hl.operand_within.grow (d3.grow_store _), hzero⟩) (by simp) (by simp)
      rfl
    refine hw.cast rfl (by simp) (by simp) ?_
    have hoperand : stored'.operand = .reg f.bank? stored'.number := by
      simp [Place.operand, hl.pooled, hl.bank]
    cases hb : f.bank? with
    | none => simp [Instr.fits, Instr.fitsThree, hplace, hoperand, hb]
    | some b => simp [hplace, hoperand, hb, fits_store (hf.symm.trans hb)]
  | some v =>
    simp only [Option.isSome_some, if_true, yields_bind, yields_pure] at h
    obtain ⟨_, _, hcopy, stored, _, ⟨rfl, rfl⟩, h⟩ := h
    obtain rfl := yields_assign hcopy
    obtain ⟨b, hb, hty, hhome⟩ := hr.isTarget.ofVariable v rfl
    have hfb : f.bank? = some b := hf.trans hty
    have hsb : stored.bank? = some b := hl.bank.trans hfb
    have htarget := target?_copyOf (b := b) stored hr.isTarget.register
    refine ⟨_, _, hr, ?_, h⟩
    rw [hsb]
    have hw := hl.toWork.push (k := true) (w := [v]) (i := copyOf (some b) place stored)
      (within_copyOf hr.isTarget.register hl.operand_within)
      (fun _ r hr' => .inr ⟨v, by simp, Option.some.inj (htarget.symm.trans hr') ▸ hhome⟩)
      (by simpa [Draft.Writes, htarget] using hhome) (by simp [proceeds_copyOf])
    rw [fits_copyOf hr.isTarget.register hb hsb] at hw
    have hl := hl.rebase (Work.refl d1) hw (by simpa using .refl _) (by simp)
    simpa [hfb] using hl

theorem assignment_lowers :
    Lowers t c (assignment false target.2 x y)
      { f with
        isPooled := target.1.isSome && f.isPooled
        effect := e ++ (f.effect ++ ⟨f.bank?.isSome, target.1.toList, f.bank?.isNone⟩) } := by
  intro d p d' hd h
  obtain ⟨place, d1, stored, d2, hr, hl, h⟩ := yields_assignment hx hy hf hd h
  simp only [Bool.false_eq_true, if_false, yields_steps] at h
  obtain ⟨-, rfl, rfl⟩ := h
  have hw := (hr.toWork.trans hl.toWork).drop hr.fresh
  refine hl.rebase hr.toWork (Work.cast hw ?_ id rfl rfl) (by simpa using .refl _) (by simp)
  ext r
  have := hl.fresh r
  have := (hr.live r).2
  simp only [Set.mem_sdiff, Set.mem_union]
  tauto

theorem assignment_finds :
    Finds t c (assignment true target.2 x y) target
      (e ++ (f.effect ++ ⟨f.bank?.isSome, target.1.toList, f.bank?.isNone⟩)) := by
  intro d p d' hd h
  obtain ⟨place, d1, stored, d2, hr, hl, h⟩ := yields_assignment hx hy hf hd h
  simp only [if_true, yields_steps] at h
  obtain ⟨-, rfl, rfl⟩ := h
  exact hr.trans ((hl.toWork.drop hl.fresh).cast (by ext r; simp) id rfl rfl)

end Assigned

/-- The left side read once more: the variable itself, or a copy of the cell. -/
theorem assignedValue_lowers (hc : c.target = some target) (hty : Ty.Agree ty target.2) :
    Lowers t c (assignedValue ty)
      { bank? := target.2.bank?, holder? := target.1, effect := {} } := by
  intro d p d' hd h
  obtain ⟨place, rest, hassigned, ht⟩ := hd.target target hc
  obtain ⟨v?, ty'⟩ := target
  simp only [assignedValue, yields_getDraft_bind, hassigned, ht.isVariable] at h
  cases v? with
  | none =>
    simp only [Option.isSome_none, Bool.false_eq_true, if_false, yields_steps, yields_alloc] at h
    obtain ⟨_, _, ⟨b, n, hb, offered, rfl, rfl⟩, -, rfl, rfl⟩ := h
    rw [← hty.1, hb]
    have hplace := ht.memory
    have hzero := (d.take b n).indexOf_lt (.int 0)
    have hw := (((Work.refl d).take offered).store (.int 0)).emit
      (i := .abc (.load (.ofTy ty) false) (.reg (some b) n) place.operand
        (.pool (some .int) ((d.take b n).indexOf (.int 0))))
      (by rw [hplace, fits_load hb]) (by simpa [hplace] using hzero) (by simp [target?_load hb]) rfl
    exact Leaves.ofFresh (hw.cast (Set.empty_union _) id rfl rfl)
      ((((Work.refl d).take offered).store (.int 0)).fills_push (target?_load hb))
  | some v =>
    simp only [Option.isSome_some, if_true, yields_pure] at h
    obtain ⟨rfl, rfl⟩ := h
    obtain ⟨b, hb, hty', hhome⟩ := ht.ofVariable v rfl
    rw [hty']
    exact Leaves.ofHome (Work.refl d') ht.register rfl ⟨ht.plain, rfl⟩ hb hhome

end Assignments

/-! ## Fields and elements -/

section Memory

variable {t : Target} {c : Context} {f g : Footprint} {e : Effect} {ty : Ty} {d d1 d' : Draft}
  {start p : Place}

/-- The address of an object is that of its first field. -/
theorem Leaves.reaches (hd : Sound c d) (h : Leaves f d p d1)
    (hself : f.isSelf = true → c.kind ≠ .static) (hb : f.bank? = some .pointer)
    (hp : f.isPooled = false) (ty : Ty) : Reaches (none, ty) f.effect d p d1 where
  toWork := h.toWork
  isTarget :=
    { register := h.pooled.trans hp
      plain := h.plain.1
      isVariable := h.plain.2
      ofVariable := by simp
      inMemory := fun _ =>
        ⟨h.bank.trans hb, h.inUse hd hself (h.pooled.trans hp) (h.bank.trans hb)⟩ }
  isFixed := by simp

theorem Reaches.ofFresh {n : Nat} (hw : Work d {(.pointer, n)} e d') :
    Reaches (none, ty) e d (.fresh .pointer n) d' where
  toWork := by rwa [Place.owned_fresh]
  isTarget :=
    { register := rfl
      plain := rfl
      isVariable := rfl
      ofVariable := by simp
      inMemory := fun _ => ⟨rfl, (hw.live _).2 (.inr rfl)⟩ }
  isFixed := by simp

theorem addressPast_reaches {offset : Int32} (hr : Reaches (none, ty) e d start d1)
    (h : Yields t (addressPast start offset) d1 p d') (ty' : Ty) : Reaches (none, ty') e d p d' := by
  have hoperand := hr.isTarget.memory
  simp only [addressPast, yields_steps, yields_alloc] at h
  obtain ⟨-, _, _, ⟨_, n, hb, offered, rfl, rfl⟩, -, rfl, rfl⟩ := h
  cases hb
  have hdistance := ((d1.drop start).take .pointer n).within_store (.int offset)
  refine Reaches.ofFresh (Work.cast (Work.emit
    (((hr.toWork.drop hr.fresh).take offered).store (.int offset)) ?_ ?_ ?_ rfl) ?_ id rfl rfl)
  · simp [Instr.fits, Instr.fitsThree, hoperand, Commuting.bank, Commuting.secondBank]
  · simpa [hoperand] using hdistance
  · simp [Instr.target?, Commuting.bank]
  · ext r
    simp

theorem Reaches.load (hr : Reaches (none, ty) e d start d1) {n : Nat} (hb : elem.bank? = some b)
    (offered : d1.Offers b n) (hz : z < d1.pools.size .int) :
    Leaves { bank? := some b, effect := e } d (.fresh b n)
      (((d1.take b n).push (.abc (.load (.ofTy elem) false) (.reg (some b) n) start.operand
        (.pool (some .int) z))).drop start) := by
  have hw := (hr.toWork.loadCell hb hr.isTarget.memory offered hz).drop hr.fresh
  exact Leaves.ofFresh (hw.cast (hr.toWork.owned_sdiff offered) id rfl rfl)
    (by simpa using (hr.toWork.take offered).fills_push (target?_load hb))

theorem Reaches.store (hr : Reaches (none, ty) e d start d1) (entry : Entry) :
    Reaches (none, ty) e d start (d1.store entry) := by
  simpa using hr.trans ((Work.refl d1).store entry)

variable {x y : Lowering Place} [Safe x] [Safe y]

theorem field_lowers (hx : Lowers t c x f) (hself : f.isSelf = true → c.kind ≠ .static)
    (hb : f.bank? = some .pointer) (offset : Nat) :
    Lowers t c (Lowering.field false ty offset x) { bank? := ty.bank?, effect := f.effect } := by
  intro d p d' hd h
  simp only [Lowering.field, Bool.false_eq_true, if_false, yields_steps, yields_alloc] at h
  obtain ⟨p0, d1, hx', start, d2, hreg, _, _, ⟨b, n, hty, offered, rfl, rfl⟩, -, -, rfl, rfl⟩ := h
  have hr := ((hx d p0 d1 hd hx').toRegister hreg).reaches hd hself hb rfl ty
  rw [hty]
  exact (hr.store _).load hty offered (d2.indexOf_lt (.int _))

theorem field_finds (hx : Lowers t c x f) (hself : f.isSelf = true → c.kind ≠ .static)
    (hb : f.bank? = some .pointer) (offset : Nat) :
    Finds t c (Lowering.field true ty offset x) (none, ty) f.effect := by
  intro d p d' hd h
  simp only [Lowering.field, if_true, yields_steps] at h
  obtain ⟨p0, d1, hx', start, d2, hreg, h⟩ := h
  have hr := ((hx d p0 d1 hd hx').toRegister hreg).reaches hd hself hb rfl ty
  split at h
  · obtain ⟨rfl, rfl⟩ := yields_pure.1 h
    exact hr
  · exact addressPast_reaches hr h ty

/-! ### Elements -/

theorem constantElement_lowers (hr : Reaches (none, ty) e d start d1)
    (h : Yields t (constantElement false elem start index) d1 p d') :
    Leaves { bank? := elem.bank?, effect := e } d p d' := by
  simp only [constantElement, Bool.false_eq_true, if_false, yields_steps, yields_alloc] at h
  obtain ⟨_, _, ⟨b, n, hty, offered, rfl, rfl⟩, -, -, rfl, rfl⟩ := h
  rw [hty]
  exact (hr.store _).load hty offered (d1.indexOf_lt (.int _))

theorem constantElement_finds (hr : Reaches (none, ty) e d start d1)
    (h : Yields t (constantElement true elem start index) d1 p d') :
    Reaches (none, elem) e d p d' := by
  simp only [constantElement, if_true, yields_bind, yields_pooledInt] at h
  obtain ⟨_, _, ⟨rfl, rfl⟩, h⟩ := h
  split at h
  · obtain ⟨rfl, rfl⟩ := yields_pure.1 h
    have hr := hr.store (.int (index * Int32.ofNat elem.size))
    exact { hr with isTarget := { hr.isTarget with ofVariable := by simp }, isFixed := by simp }
  · exact addressPast_reaches (hr.store _) h elem

/-- The position is in a register of its own, which scaling changes. -/
theorem yields_scaleIndex {index : Place} {size : Nat} {d2 : Draft} {u : Unit}
    (hl : Leaves g d1 index d2) (hg : g.bank? = some .int) (hp : g.isPooled = false)
    (hfixed : index.isFixed = false) (h : Yields t (scaleIndex size count index) d2 u d') :
    Leaves g d1 index d' := by
  have hoperand := hl.operand_register hg hp
  have howned := Place.mem_owned (hl.pooled.trans hp) hfixed (hl.bank.trans hg)
  simp only [scaleIndex, yields_steps] at h
  obtain ⟨-, h⟩ := h
  have hw := hl.toWork.emit (i := .abx .bound index.operand (.imm (count % 65536)))
    (by simp [Instr.fits, hoperand]) (by simp [hoperand]) (by simp [Instr.target?]) rfl
  split at h
  · obtain ⟨-, rfl⟩ := yields_emit.1 h
    refine hl.update hp (hw.emit ?_ ?_ ?_ rfl) (by simp)
    · simp [Instr.fits, Instr.fitsThree, hoperand]
    · simp [hoperand]
    · simpa [Instr.target?, hoperand] using howned
  · obtain ⟨-, rfl⟩ := yields_pure.1 h
    exact hl.update hp hw (by simp)

theorem computedElement_lowers (hr : Reaches (none, ty) e d start d1) (hd : Sound c d1)
    (hy : Lowers t c y g) (hg : g.bank? = some .int)
    (h : Yields t (computedElement false elem count start y) d1 p d') :
    Leaves { bank? := elem.bank?, effect := e ++ g.effect } d p d' := by
  simp only [computedElement, Bool.false_eq_true, if_false, yields_steps, yields_alloc] at h
  obtain ⟨i0, d2, hi, index, d3, hscratch, _, d4, hscale, _, _, ⟨b, n, hty, offered, rfl, rfl⟩, -,
    -, -, rfl, rfl⟩ := h
  obtain ⟨hl, hfixed⟩ := (hy d1 i0 d2 hd hi).toScratch hscratch
  have hl := yields_scaleIndex hl hg rfl hfixed hscale
  have hoperand := hr.isTarget.memory
  have hindex := hl.operand_register hg rfl
  rw [hty]
  refine Leaves.ofFresh (Work.cast (Work.drop (Work.drop (Work.emit
    ((hr.toWork.trans hl.toWork).take offered) ?_ ?_ ?_ rfl) (hr.toWork.right_fresh hl.toWork))
    hr.fresh) ?_ id rfl rfl)
    (by simpa using ((hr.toWork.trans hl.toWork).take offered).fills_push (target?_load hty))
  · rw [hoperand, hindex]
    exact fits_loadIndexed hty
  · simp [hoperand, hindex]
  · simp [target?_load hty]
  · ext r
    have := Set.ext_iff.1 (hr.toWork.held_apart hl.toWork offered) r
    simp only [Set.mem_sdiff] at this ⊢
    tauto

theorem computedElement_finds (hr : Reaches (none, ty) e d start d1) (hd : Sound c d1)
    (hy : Lowers t c y g) (hg : g.bank? = some .int)
    (h : Yields t (computedElement true elem count start y) d1 p d') :
    Reaches (none, elem) (e ++ g.effect) d p d' := by
  simp only [computedElement, if_true, yields_steps, yields_alloc] at h
  obtain ⟨i0, d2, hi, index, d3, hscratch, _, d4, hscale, -, -, _, _, ⟨_, n, hb, offered, rfl, rfl⟩,
    -, rfl, rfl⟩ := h
  obtain ⟨hl, hfixed⟩ := (hy d1 i0 d2 hd hi).toScratch hscratch
  have hl := yields_scaleIndex hl hg rfl hfixed hscale
  have hoperand := hr.isTarget.memory
  have hindex := hl.operand_register hg rfl
  cases hb
  refine Reaches.ofFresh (Work.emit (hr.toWork.combine hl.toWork offered) ?_ ?_ ?_ rfl)
  · simp [Instr.fits, Instr.fitsThree, hoperand, hindex, Commuting.bank, Commuting.secondBank]
  · simp [hoperand, hindex]
  · simp [Instr.target?, Commuting.bank]

variable {v? : Option LocalId} {elem : Ty} {count : Nat} {position : Option Constant}

omit [Safe x] in
/-- Arrays are in memory: no variable has room for one. -/
theorem Finds.inMemory (hx : Finds t c x (v?, .array elem count) e) (hd : Sound c d)
    {p0 : Place} {d0 : Draft} (h : Yields t x d p0 d0) (hq : Yields t (toRegister p0) d0 p d1) :
    Reaches (none, .array elem count) e d p d1 := by
  have hr := hx d p0 d0 hd h
  unfold toRegister at hq
  rw [if_neg (by simp [hr.isTarget.register])] at hq
  obtain ⟨rfl, rfl⟩ := yields_pure.1 hq
  cases v? with
  | none => exact hr
  | some v =>
    obtain ⟨b, -, hb, -⟩ := hr.isTarget.ofVariable v rfl
    cases hb

variable (hx : Finds t c x (v?, .array elem count) e)

include hx

/-- The start of the array is found first. -/
theorem yields_element (hd : Sound c d)
    (h : Yields t (element byAddress (.array elem count) position x y) d p d') :
    ∃ start d1, Reaches (none, .array elem count) e d start d1 ∧
      Yields t (position.elim (computedElement byAddress elem count start y)
        fun n => constantElement byAddress elem start n.toInt) d1 p d' := by
  cases position <;> (
    simp only [element, yields_steps] at h
    obtain ⟨p0, d0, hx', start, d1, hreg, h⟩ := h
    exact ⟨start, d1, hx.inMemory hd hx' hreg, h⟩)

variable (hy : Lowers t c y g) (hg : g.bank? = some .int)
  (hposition : position.isSome → g.effect = {})

include hy hg hposition

theorem element_lowers : Lowers t c (element false (.array elem count) position x y)
    { bank? := elem.bank?, effect := e ++ g.effect } := by
  intro d p d' hd h
  obtain ⟨start, d1, hr, h⟩ := yields_element hx hd h
  cases position with
  | none => exact computedElement_lowers hr (hd.work hr.toWork) hy hg h
  | some n =>
    rw [hposition rfl]
    simpa using constantElement_lowers hr h

theorem element_finds :
    Finds t c (element true (.array elem count) position x y) (none, elem) (e ++ g.effect) := by
  intro d p d' hd h
  obtain ⟨start, d1, hr, h⟩ := yields_element hx hd h
  cases position with
  | none => exact computedElement_finds hr (hd.work hr.toWork) hy hg h
  | some n =>
    rw [hposition rfl]
    simpa using constantElement_finds hr h

end Memory

end ActorScript
