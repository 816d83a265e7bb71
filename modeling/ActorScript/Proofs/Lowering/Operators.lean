import ActorScript.Proofs.Lowering.Contract

/-! # Code of conversions and operators
-/

namespace ActorScript

variable {b : Bank} {n : Nat} {held : Set Register} {op : BinOp} {ty : Ty}

open Lowering

namespace Leaves

variable {c : Context} {f : Footprint} {d d1 : Draft} {p : Place}

/-- The register of a value is given up and the result takes another. -/
theorem replace (h : Leaves f d p d1) {i : Instr} (offered : (d1.drop p).Offers b n)
    (fits : i.fits = true) (within : i.Within d1.pools) (target : i.target? = some (b, n)) :
    Leaves { bank? := some b, effect := f.effect } d (.fresh b n)
      (((d1.drop p).take b n).push i) := by
  have hw := ((h.toWork.drop h.fresh).take offered).emit fits (by simpa using within)
    (by simp [target]) (by simp [Instr.proceeds_of_target target])
  have hheld : p.owned \ p.owned ∪ {(b, n)} = {(b, n)} := by
    ext r
    simp
  refine ofFresh (hheld ▸ hw) ?_
  exact ((h.toWork.drop h.fresh).take offered).fills_push target

end Leaves

/-- A register that is offered is not that of a value. -/
theorem Work.owned_sdiff {e : Effect} {d d1 : Draft} {p : Place} (hw : Work d p.owned e d1)
    (offered : d1.Offers b n) : (p.owned ∪ {(b, n)}) \ p.owned = {(b, n)} := by
  have : (b, n) ∉ p.owned := fun hx => offered.not_live ((hw.live _).2 (.inr hx))
  ext r
  simp only [Set.mem_sdiff, Set.mem_union, Set.mem_singleton_iff]
  grind

def truthCode (n : Nat) (comparison : Op) (check : Nat) (b c : Operand) : List Instr :=
  [.asbx .li (.reg (some .int) n) 0, .abc comparison (.imm check) b c, .asbx .jmp (.imm 0) 1,
    .asbx .li (.reg (some .int) n) 1]

section Truth

variable {t : Target} {d d1 d2 : Draft} {op : Op} {check : Nat} {b c : Operand} {u : Unit}

theorem yields_truthOf
    (h : Yields t (truthOf (.fresh .int n) op check b c) d u d1) :
    d1 = d.pushAll (truthCode n op check b c) := by
  simp only [truthOf, yields_steps, Place.operand_fresh] at h
  obtain ⟨-, -, -, -, rfl⟩ := h
  rfl

theorem Work.truthOf {e : Effect} (h : Work d held e d1) (hn : (.int, n) ∈ held)
    (hop : (Instr.abc op (.imm check) b c).target? = none) (hflow : op.proceeds 2 = true)
    (hb : b.Within d1.pools) (hc : c.Within d1.pools)
    (hy : Yields t (Lowering.truthOf (.fresh .int n) op check b c) d1 u d2) :
    Work d held (e ++ ⟨true, [], !(Instr.abc op (.imm check) b c).fits⟩) d2 ∧
      d.Fills d2 (.int, n) := by
  obtain rfl := yields_truthOf hy
  have hflows : flowing (truthCode n op check b c) = true := by
    have htest : (Instr.abc op (.imm check) b c).proceeds 2 = true := Instr.proceeds_of_op hflow
    simp only [truthCode, flowing, List.length_cons, List.length_nil, htest]
    rfl
  have hw := h.block (w := []) (k := true) (truthCode n op check b c)
    (by simp [truthCode, hb, hc]) (by simpa [truthCode, hop] using hn) (by simp)
    fun hc => hc.append hflows
  exact ⟨hw.cast rfl id rfl (by simp [truthCode]), h.fills (d1.starts_pushAll _ _) rfl⟩

end Truth

section Conversions

variable {t : Target} {c : Context} {x : Lowering Place} [Safe x] {f : Footprint}

theorem convert_lowers (hx : Lowers t c x f) {bank source : Bank} {conversion : Conversion}
    (hbanks : Conversion.banks? conversion.code = some (bank, source))
    (hf : f.bank? = some source) :
    Lowers t c (convert x bank conversion) { bank? := some bank, effect := f.effect } := by
  intro d p d' hd h
  simp only [convert, yields_steps, yields_alloc] at h
  obtain ⟨p0, d1, hx', s, d2, hreg, -, _, _, ⟨b, n, hb, offered, rfl, rfl⟩, -, rfl, rfl⟩ := h
  have hl := (hx d p0 d1 hd hx').toRegister hreg
  cases hb
  have hs := hl.operand_register hf rfl
  refine hl.replace offered ?_ ?_ ?_
  · simp [Instr.fits, Instr.fitsThree, Operand.value, hbanks, hs, Slot.accepts]
  · simp [hs]
  · simp [Instr.target?, Operand.value, hbanks]

/-- The test for the zero of a bank reads that zero and values of the bank. -/
theorem zeroTest_spec {d d' : Draft} {test : Op × Operand} (hb : b ≠ .string)
    (h : Yields t (zeroTest (some b) (.fresh .int n)) d test d') :
    ∃ kind constant, test.1 = .equal kind constant ∧ kind.bank = b ∧
      (Slot.value b constant).accepts test.2 = true ∧ test.2.Within d'.pools ∧
      ∀ d0 held e, Work d0 held e d → Work d0 held e d' := by
  cases b with
  | string => exact absurd rfl hb
  | int =>
    simp only [zeroTest, yields_pure] at h
    obtain ⟨rfl, rfl⟩ := h
    exact ⟨.word, false, rfl, rfl, by simp, by simp, fun _ _ _ => id⟩
  | float | pointer =>
    simp only [zeroTest, yields_steps, yields_floatConstant] at h
    obtain ⟨rfl, rfl⟩ := h
    exact ⟨_, true, rfl, rfl, by simp, d.within_store _, fun _ _ _ hw => hw.store _⟩

theorem toBool_lowers (hx : Lowers t c x f) (hb : b ≠ .string) (hf : f.bank? = some b) :
    Lowers t c (Lowering.toBool x) { bank? := some .int, effect := f.effect } := by
  intro d p d' hd h
  simp only [Lowering.toBool, yields_steps] at h
  obtain ⟨p0, d1, hx', s, d2, hreg, n, offered, -, ⟨op, zero⟩, d3, htest, _, _, htruth, rfl, rfl⟩ :=
    h
  have hl := (hx d p0 d1 hd hx').toRegister hreg
  have hs := hl.operand_register hf rfl
  rw [hl.bank.trans hf] at htest
  obtain ⟨kind, constant, rfl, rfl, haccepts, hzero, hwork⟩ := zeroTest_spec hb htest
  have hw := hwork _ _ _ ((hl.toWork.take offered).drop hl.fresh)
  obtain ⟨hw, hfills⟩ :=
    (hw.cast (hl.toWork.owned_sdiff offered) id rfl rfl).truthOf rfl rfl rfl (by simp [hs]) hzero
      htruth
  refine Leaves.ofFresh (Work.cast hw rfl (by simp) (by simp) ?_) hfills
  simp [Instr.fits, Instr.fitsThree, hs, haccepts]

theorem cast_lowers (hx : Lowers t c x f) {kind : CastKind} {source : Ty} (hb : kind.Takes b)
    (hf : f.bank? = some b) :
    Lowers t c (Lowering.cast kind source x) { bank? := some kind.bank, effect := f.effect } := by
  cases kind with
  | bool => exact toBool_lowers hx hb hf
  | float | string =>
    cases hb
    refine convert_lowers hx ?_ hf
    split <;> rfl
  | name | color | sound =>
    cases hb
    exact convert_lowers hx rfl hf

theorem intCast_lowers (hx : Lowers t c x f) (target : Ty) (hf : f.bank? = some .float) :
    Lowers t c (Lowering.intCast target x) { bank? := some .int, effect := f.effect } := by
  refine convert_lowers hx ?_ hf
  split <;> rfl

theorem minus_lowers (hx : Lowers t c x f) (hb : b = .int ∨ b = .float) (hf : f.bank? = some b) :
    Lowers t c (unary .minus x) { bank? := some b, effect := f.effect } := by
  intro d p d' hd h
  simp only [unary, yields_steps] at h
  obtain ⟨p0, d1, hx', s, d2, hscratch, h⟩ := h
  obtain ⟨hl, hfixed⟩ := (hx d p0 d1 hd hx').toScratch hscratch
  have hl := hl.banked hf
  have hs := hl.operand_register rfl rfl
  have howned := Place.mem_owned hl.pooled hfixed hl.bank
  rcases hb with rfl | rfl
  on_goal 1 => rw [if_neg (by simp [hl.bank])] at h
  on_goal 2 => rw [if_pos hl.bank] at h
  all_goals
    simp only [yields_steps] at h
    obtain ⟨-, rfl, rfl⟩ := h
    refine hl.update rfl (hl.toWork.emit ?_ ?_ ?_ rfl) (by simp)
    · simp [Instr.fits, Instr.fitsThree, hs]
    · simp [hs]
    · simpa [Instr.target?, hs] using howned

theorem complement_lowers (hx : Lowers t c x f) {op : UnaryOp} (hop : op = .bitNot ∨ op = .boolNot)
    (hf : f.bank? = some .int) :
    Lowers t c (unary op x) { bank? := some .int, effect := f.effect } := by
  intro d p d' hd h
  rcases hop with rfl | rfl
  all_goals
    simp only [unary, yields_steps] at h
    obtain ⟨p0, d1, hx', s, d2, hscratch, -, h⟩ := h
    obtain ⟨hl, hfixed⟩ := (hx d p0 d1 hd hx').toScratch hscratch
    have hl := hl.banked hf
    have hs := hl.operand_register rfl rfl
    have howned := Place.mem_owned hl.pooled hfixed hl.bank
  · obtain ⟨rfl, rfl⟩ := h
    refine hl.update rfl (hl.toWork.emit ?_ ?_ ?_ rfl) (by simp)
    · simp [Instr.fits, Instr.fitsThree, hs]
    · simp [hs]
    · simpa [Instr.target?, hs] using howned
  · obtain ⟨-, rfl, rfl⟩ := h
    have hone := d2.within_store (.int 1)
    refine hl.update rfl (Work.emitAll (hl.toWork.store (.int 1)) [_, _] ?_ ?_ ?_ rfl) (by simp)
    · simp [Instr.fits, Instr.fitsThree, hs, Commuting.bank, Commuting.secondBank]
    · simpa [hs] using hone
    · simpa [Instr.target?, hs, Commuting.bank] using howned

end Conversions

/-! ## Binary operators -/

/-- Operators whose result is in the bank of their operands. -/
def BinOp.IsArithmetic : BinOp → Prop
  | .add | .sub | .mul | .div | .mod | .pow => True
  | _ => False

section Forms

variable {b : Bank} {l r : Place}

/-- One constant goes into the form of an instruction, two do not. -/
theorem accepts_inputs (hl : l.bank? = some b) (hr : r.bank? = some b) :
    ((Slot.inputs b (formOf l r)).1.accepts l.operand &&
      (Slot.inputs b (formOf l r)).2.accepts r.operand) = !(l.isConstant && r.isConstant) := by
  cases hlc : l.isConstant <;> cases hrc : r.isConstant <;>
    simp [formOf, Slot.inputs, Slot.accepts, Place.operand, hl, hr, hlc, hrc]

theorem accepts_constantLast (hl : l.bank? = some b) (hr : r.bank? = some b) :
    (Slot.accepts (.register b) (constantLast l r).1.operand &&
      Slot.accepts (.value b (constantLast l r).2.isConstant) (constantLast l r).2.operand) =
        !(l.isConstant && r.isConstant) := by
  cases hlc : l.isConstant <;> cases hrc : r.isConstant <;>
    simp [constantLast, Slot.value, Slot.accepts, Place.operand, hl, hr, hlc, hrc]

theorem formOf_constantLast (l r : Place) :
    (formOf (constantLast l r).1 (constantLast l r).2 = .rk) ↔
      (constantLast l r).2.isConstant = true := by
  unfold formOf
  grind

/-- The operation of an arithmetic operator works on the bank of the operands. -/
theorem arithmeticOp_cases (form : Form) (hop : op.IsArithmetic) (hbank : op.bank? b = some b)
    (hty : ty.bank? = some b) :
    ((op = .add ∨ op = .mul) ∧ ∃ o : Commuting, o.bank = b ∧ o.secondBank = b ∧
      arithmeticOp op ty form = .commuting o (form = .rk)) ∨
    (¬ (op = .add ∨ op = .mul) ∧ ∃ o : Ordered, o.bank = b ∧
      arithmeticOp op ty form = .ordered o form) := by
  cases op <;> simp only [BinOp.IsArithmetic] at hop <;> cases b <;>
    simp [BinOp.bank?] at hbank <;>
    simp only [arithmeticOp, hty, reduceCtorEq, Option.some.injEq, if_false, if_true] <;>
    first
    | exact .inl ⟨by simp, _, rfl, rfl, rfl⟩
    | refine .inr ⟨by simp, _, ?_, rfl⟩
      split <;> rfl
    | exact .inr ⟨by simp, _, rfl, rfl⟩

theorem drop_constantLast (d : Draft) (l r : Place) :
    (d.drop (constantLast l r).1).drop (constantLast l r).2 = (d.drop l).drop r := by
  unfold constantLast
  split
  next hl => simp [Draft.drop, Place.isOwned, hl]
  next => rfl

theorem within_constantLast {pools : Pools} (hl : l.operand.Within pools)
    (hr : r.operand.Within pools) : (constantLast l r).1.operand.Within pools ∧
      (constantLast l r).2.operand.Within pools := by
  unfold constantLast
  split
  · exact ⟨hr, hl⟩
  · exact ⟨hl, hr⟩

/-- The instruction of an arithmetic operator, with its operands in the order it takes them. -/
def arithmeticInstr (op : BinOp) (ty : Ty) (b : Bank) (n : Nat) (operands : Place × Place) : Instr :=
  .abc (arithmeticOp op ty (formOf operands.1 operands.2)) (.reg (some b) n) operands.1.operand
    operands.2.operand

theorem arithmeticInstr_spec (n : Nat) (hop : op.IsArithmetic) (hbank : op.bank? b = some b)
    (hty : ty.bank? = some b) (hl : l.bank? = some b) (hr : r.bank? = some b)
    {operands : Place × Place}
    (h : operands = if op = .add || op = .mul then constantLast l r else (l, r)) :
    (arithmeticInstr op ty b n operands).target? = some (b, n) ∧
      (arithmeticInstr op ty b n operands).fits = !(l.isConstant && r.isConstant) := by
  unfold arithmeticInstr
  obtain ⟨hcomm, o, ho, ho', hop'⟩ | ⟨hcomm, o, ho, hop'⟩ :=
    arithmeticOp_cases (formOf operands.1 operands.2) hop hbank hty
  · rw [if_pos (by simpa using hcomm)] at h
    subst h
    simp [hop', Instr.target?, Instr.fits, Instr.fitsThree, Operand.value, ho, ho',
      formOf_constantLast, accepts_constantLast hl hr]
  · rw [if_neg (by simpa using hcomm)] at h
    subst h
    simp [hop', Instr.target?, Instr.fits, Instr.fitsThree, Operand.value, ho,
      accepts_inputs hl hr]

end Forms

namespace Work

variable {d d1 d2 : Draft} {l r : Place} {e e' : Effect} {b : Bank} {n : Nat}

theorem right_fresh {held' : Set Register} (hl : Work d held e d1) (hr : Work d1 held' e' d2) :
    ∀ x ∈ held', x ∉ d.live :=
  fun x hx hd => hr.fresh x hx ((hl.live x).2 (.inl hd))

theorem disjoint_held {held' : Set Register} (hl : Work d held e d1) (hr : Work d1 held' e' d2) :
    ∀ x ∈ held, x ∉ held' :=
  fun x hx hx' => hr.fresh x hx' ((hl.live x).2 (.inr hx))

/-- The registers of both operands are given up and the result takes another. -/
theorem combine (hl : Work d l.owned e d1) (hr : Work d1 r.owned e' d2)
    (offered : ((d2.drop l).drop r).Offers b n) :
    Work d {(b, n)} (e ++ e') (((d2.drop l).drop r).take b n) := by
  have hw := ((hl.trans hr).drop hl.fresh).drop (hl.right_fresh hr)
  refine (hw.take offered).cast ?_ id rfl rfl
  ext x
  simp only [Set.mem_union, Set.mem_sdiff, Set.mem_singleton_iff]
  tauto

theorem held_apart (hl : Work d l.owned e d1) (hr : Work d1 r.owned e' d2)
    (offered : d2.Offers b n) :
    ((l.owned ∪ r.owned ∪ {(b, n)}) \ l.owned) \ r.owned = {(b, n)} := by
  have hleft : (b, n) ∉ l.owned := fun hx =>
    offered.not_live ((hr.live _).2 (.inl ((hl.live _).2 (.inr hx))))
  have hright : (b, n) ∉ r.owned := fun hx => offered.not_live ((hr.live _).2 (.inr hx))
  ext x
  simp only [Set.mem_sdiff, Set.mem_union, Set.mem_singleton_iff]
  grind

/-- The result takes a register while those of both operands are still in use. -/
theorem combine_apart (hl : Work d l.owned e d1) (hr : Work d1 r.owned e' d2)
    (offered : d2.Offers b n) :
    Work d {(b, n)} (e ++ e') (((d2.take b n).drop l).drop r) := by
  have hw := (((hl.trans hr).take offered).drop hl.fresh).drop (hl.right_fresh hr)
  exact hw.cast (hl.held_apart hr offered) id rfl rfl

end Work

namespace Leaves

variable {c : Context} {f g : Footprint} {d d1 d2 : Draft} {l r : Place} {b : Bank} {n : Nat}

theorem ofOperation {e : Effect} (hw : Work d {(b, n)} e d1) {i : Instr}
    (within : i.Within d1.pools) (target : i.target? = some (b, n)) :
    Leaves { bank? := some b, effect := e ++ ⟨true, [], !i.fits⟩ } d
      (.fresh b n) (d1.push i) :=
  ofFresh (hw.push within (by simp [target]) (by simp) (by simp [Instr.proceeds_of_target target]))
    (hw.fills_push target)

end Leaves

section Binary

variable {t : Target} {c : Context} {x y : Lowering Place} [Safe x] [Safe y] {f g : Footprint}
  {b : Bank}

omit [Safe y] in
theorem shift_lowers_constant (hx : Lowers t c x f) (op : BinOp) (amount : Constant)
    (hf : f.bank? = some .int) :
    Lowers t c (shift op (some amount) x y) { bank? := some .int, effect := f.effect } := by
  intro d p d' hd h
  simp only [shift, yields_steps, yields_alloc] at h
  obtain ⟨p0, d1, hx', s, d2, hreg, -, _, _, ⟨b, n, hb, offered, rfl, rfl⟩, -, rfl, rfl⟩ := h
  have hl := (hx d p0 d1 hd hx').toRegister hreg
  cases hb
  have hs := hl.operand_register hf rfl
  refine hl.replace offered ?_ ?_ ?_
  · simp [Instr.fits, Instr.fitsThree, hs]
  · simp [hs]
  · simp [Instr.target?, Operand.value]

theorem comparandOf_bank (hb : b = .int ∨ b = .float) (leftTy rightTy : Ty) :
    (comparandOf (some b) leftTy rightTy).bank = b := by
  unfold comparandOf
  rcases hb with rfl | rfl
  · simp only [Option.some.injEq, reduceCtorEq, if_false]
    split <;> rfl
  · rfl

/-- The instructions of a three-way comparison, by tests for less and for not greater. -/
def threeWayCode (n : Nat) (less notGreater : Op) (b c : Operand) : List Instr :=
  [.asbx .li (.reg (some .int) n) 1, .abc less (.imm 0) b c, .asbx .jmp (.imm 0) 2,
    .asbx .li (.reg (some .int) n) (-1), .asbx .jmp (.imm 0) 3, .abc notGreater (.imm 0) b c,
    .asbx .jmp (.imm 0) 1, .asbx .li (.reg (some .int) n) 0]

/-- The jumps have their targets in the end, and the operands stay in use until then. -/
theorem yields_threeWay {leftTy rightTy : Ty} {d d' : Draft} {p : Place}
    (h : Yields t (Lowering.threeWay leftTy rightTy x y) d p d') :
    ∃ l d1 r d2 n, Yields t x d l d1 ∧ Yields t y d1 r d2 ∧ d2.Offers .int n ∧
      p = .fresh .int n ∧
      d' = (((d2.take .int n).pushAll (threeWayCode n
        (.compare .lt (comparandOf l.bank? leftTy rightTy) (formOf l r))
        (.compare .le (comparandOf l.bank? leftTy rightTy) (formOf l r)) l.operand
        r.operand)).drop l).drop r := by
  simp only [Lowering.threeWay, yields_steps] at h
  obtain ⟨l, d1, hl, r, d2, hr, n, offered, -, -, -, -, -, -, -, -, -, -, rfl, rfl⟩ := h
  refine ⟨l, d1, r, d2, n, hl, hr, offered, rfl, ?_⟩
  have hpush (d : Draft) (i : Instr) : d.push i = d.pushAll [i] := rfl
  have hpushes (d : Draft) (is js : List Instr) : (d.pushAll is).pushAll js = d.pushAll (is ++ js) :=
    (List.foldl_append ..).symm
  have hoffset (k i j : Nat) : Assembly.jumpOffset (k + i) (k + j) = (j : Int) - (i + 1) := by
    unfold Assembly.jumpOffset
    omega
  simp only [hpush, hpushes, Draft.code_pushAll, List.length_append, List.length_cons,
    List.length_nil, List.length_modify, List.cons_append, List.nil_append, Draft.retarget_pushAll,
    Nat.zero_add, Nat.reduceAdd, hoffset]
  rfl

/-- Whether an operator reads a pooled operand as if it were in a register. -/
def misreadsPooled (op : BinOp) (amount : Option Constant) (left right : Bool) : Bool :=
  match op with
  | .shl | .shr | .ushr => amount.isNone && right
  | _ => left && right

variable (hx : Lowers t c x f) (hy : Lowers t c y g)

include hx hy

theorem arithmetic_lowers (hop : op.IsArithmetic) (hbank : op.bank? b = some b)
    (hty : ty.bank? = some b) (hf : f.bank? = some b) (hg : g.bank? = some b) :
    Lowers t c (arithmetic op ty x y)
      { bank? := some b
        effect := f.effect ++ g.effect ++ ⟨true, [], f.isPooled && g.isPooled⟩ } := by
  intro d p d' hd h
  simp only [arithmetic, yields_steps, yields_alloc] at h
  obtain ⟨l, d1, hl, r, d2, hr, -, -, _, _, ⟨_, n, hb, offered, rfl, rfl⟩, -, rfl, rfl⟩ := h
  have hl := hx d l d1 hd hl
  have hr := hy d1 r d2 (hd.work hl.toWork) hr
  cases hty.symm.trans hb
  have hlb := hl.bank.trans hf
  have hrb := hr.bank.trans hg
  obtain ⟨operands, hoperands⟩ :
      ∃ operands, operands = if op = .add || op = .mul then constantLast l r else (l, r) := ⟨_, rfl⟩
  obtain ⟨htarget, hfits⟩ := arithmeticInstr_spec n hop hbank hty hlb hrb hoperands
  have hdrop : (d2.drop operands.1).drop operands.2 = (d2.drop l).drop r := by
    grind [drop_constantLast]
  have hwithin : operands.1.operand.Within d2.pools ∧ operands.2.operand.Within d2.pools := by
    have := within_constantLast (hl.operand_within.grow hr.pools) hr.operand_within
    grind [hl.operand_within.grow hr.pools, hr.operand_within]
  rw [← hoperands, hdrop] at offered ⊢
  have hw := Leaves.ofOperation (hl.toWork.combine hr.toWork offered) (i := arithmeticInstr op ty b n operands)
    (by simpa [arithmeticInstr] using hwithin) htarget
  rw [hfits, Bool.not_not, hl.pooled, hr.pooled] at hw
  exact hw

theorem bitwise_lowers (op : BinOp) (hf : f.bank? = some .int) (hg : g.bank? = some .int) :
    Lowers t c (bitwise op x y)
      { bank? := some .int
        effect := f.effect ++ g.effect ++ ⟨true, [], f.isPooled && g.isPooled⟩ } := by
  intro d p d' hd h
  simp only [bitwise, yields_steps, yields_alloc] at h
  obtain ⟨l, d1, hl, r, d2, hr, -, -, _, _, ⟨b, n, hb, offered, rfl, rfl⟩, -, rfl, rfl⟩ := h
  have hl := hx d l d1 hd hl
  have hr := hy d1 r d2 (hd.work hl.toWork) hr
  cases hb
  have hbank : (bitwiseOf op).bank = .int ∧ (bitwiseOf op).secondBank = .int := by
    cases op <;> exact ⟨rfl, rfl⟩
  rw [drop_constantLast] at offered ⊢
  have hw := Leaves.ofOperation (hl.toWork.combine hr.toWork offered)
    (i := .abc (.commuting (bitwiseOf op) (constantLast l r).2.isConstant) (.reg (some .int) n)
      (constantLast l r).1.operand (constantLast l r).2.operand)
    (by simpa using within_constantLast (hl.operand_within.grow hr.pools) hr.operand_within)
    (by simp [Instr.target?, Operand.value, hbank])
  simp only [Instr.fits, Instr.fitsThree, hbank, Slot.register_accepts_reg, beq_self_eq_true,
    Bool.true_and, accepts_constantLast (hl.bank.trans hf) (hr.bank.trans hg), Bool.not_not,
    hl.pooled, hr.pooled] at hw
  exact hw

theorem shift_lowers (op : BinOp) (hf : f.bank? = some .int) (hg : g.bank? = some .int) :
    Lowers t c (shift op none x y)
      { bank? := some .int, effect := f.effect ++ g.effect ++ ⟨true, [], g.isPooled⟩ } := by
  intro d p d' hd h
  simp only [shift, yields_steps, yields_alloc] at h
  obtain ⟨l, d1, hl, r, d2, hr, -, -, _, _, ⟨b, n, hb, offered, rfl, rfl⟩, -, rfl, rfl⟩ := h
  have hl := hx d l d1 hd hl
  have hr := hy d1 r d2 (hd.work hl.toWork) hr
  cases hb
  have hlb := hl.bank.trans hf
  have hrb := hr.bank.trans hg
  have hw := Leaves.ofOperation (hl.toWork.combine hr.toWork offered)
    (i := .abc (.shift (shiftOf op) (if l.isConstant then .kr else .rr)) (.reg (some .int) n) l.operand
      r.operand)
    (by simpa using ⟨hl.operand_within.grow hr.pools, hr.operand_within⟩)
    (by simp [Instr.target?, Operand.value])
  have hfits : (Instr.abc (.shift (shiftOf op) (if l.isConstant then .kr else .rr)) (.reg (some .int) n)
      l.operand r.operand).fits = !g.isPooled := by
    rw [← hr.pooled]
    cases hlc : l.isConstant <;> cases hrc : r.isConstant <;>
      simp [Instr.fits, Instr.fitsThree, Slot.inputs, Place.operand, hlb, hrb, hlc, hrc]
  rw [hfits, Bool.not_not] at hw
  exact hw

theorem order_lowers (op : BinOp) (leftTy rightTy : Ty) (hb : b = .int ∨ b = .float)
    (hf : f.bank? = some b) (hg : g.bank? = some b) :
    Lowers t c (order op leftTy rightTy x y)
      { bank? := some .int
        effect := f.effect ++ g.effect ++ ⟨true, [], f.isPooled && g.isPooled⟩ } := by
  intro d p d' hd h
  simp only [order, yields_steps] at h
  obtain ⟨l, d1, hl, r, d2, hr, n, offered, -, -, _, _, htruth, rfl, rfl⟩ := h
  have hl := hx d l d1 hd hl
  have hr := hy d1 r d2 (hd.work hl.toWork) hr
  have hlb := hl.bank.trans hf
  have hrb := hr.bank.trans hg
  obtain ⟨hw, hfills⟩ := (hl.toWork.combine_apart hr.toWork offered).truthOf rfl rfl rfl
    (by simpa using hl.operand_within.grow hr.pools) (by simpa using hr.operand_within) htruth
  simp only [Instr.fits, Instr.fitsThree, hlb, comparandOf_bank hb, Slot.immediate_accepts_imm,
    Bool.true_and, accepts_inputs hlb hrb, Bool.not_not, hl.pooled, hr.pooled] at hw
  exact Leaves.ofFresh hw hfills

theorem equality_lowers (op : BinOp) (hb : b ≠ .string) (hf : f.bank? = some b)
    (hg : g.bank? = some b) :
    Lowers t c (equality op x y)
      { bank? := some .int
        effect := f.effect ++ g.effect ++ ⟨true, [], f.isPooled && g.isPooled⟩ } := by
  intro d p d' hd h
  simp only [equality, yields_steps] at h
  obtain ⟨l, d1, hl, r, d2, hr, n, offered, -, -, _, _, htruth, rfl, rfl⟩ := h
  have hl := hx d l d1 hd hl
  have hr := hy d1 r d2 (hd.work hl.toWork) hr
  have hlb := hl.bank.trans hf
  have hrb := hr.bank.trans hg
  have hbank : (equalityOf (constantLast l r).1.bank?).bank = b := by
    have : (constantLast l r).1.bank? = some b := by
      unfold constantLast
      split <;> assumption
    rw [this]
    cases b <;> first | rfl | exact absurd rfl hb
  have hwithin := within_constantLast (hl.operand_within.grow hr.pools) hr.operand_within
  rw [drop_constantLast] at htruth
  obtain ⟨hw, hfills⟩ := (hl.toWork.combine_apart hr.toWork offered).truthOf rfl rfl rfl
    (by simpa using hwithin.1) (by simpa using hwithin.2) htruth
  simp only [Instr.fits, Instr.fitsThree, hbank, Slot.immediate_accepts_imm, Bool.true_and,
    accepts_constantLast hlb hrb, Bool.not_not, hl.pooled, hr.pooled] at hw
  exact Leaves.ofFresh hw hfills

theorem threeWay_lowers (leftTy rightTy : Ty) (hb : b = .int ∨ b = .float) (hf : f.bank? = some b)
    (hg : g.bank? = some b) :
    Lowers t c (threeWay leftTy rightTy x y)
      { bank? := some .int
        effect := f.effect ++ g.effect ++ ⟨true, [], f.isPooled && g.isPooled⟩ } := by
  intro d p d' hd h
  obtain ⟨l, d1, r, d2, n, hl, hr, offered, rfl, rfl⟩ := yields_threeWay h
  have hl := hx d l d1 hd hl
  have hr := hy d1 r d2 (hd.work hl.toWork) hr
  have hlb := hl.bank.trans hf
  have hrb := hr.bank.trans hg
  have hfits (relation : Relation) : (Instr.abc (.compare relation
      (comparandOf l.bank? leftTy rightTy) (formOf l r)) (.imm 0) l.operand r.operand).fits =
        !(f.isPooled && g.isPooled) := by
    simp [Instr.fits, Instr.fitsThree, hlb, comparandOf_bank hb, accepts_inputs hlb hrb,
      ← hl.pooled, ← hr.pooled]
  have hw := (hl.toWork.trans hr.toWork).take offered
  have hcode := hw.block (w := []) (k := true) (threeWayCode n
      (.compare .lt (comparandOf l.bank? leftTy rightTy) (formOf l r))
      (.compare .le (comparandOf l.bank? leftTy rightTy) (formOf l r)) l.operand r.operand)
    (by simp [threeWayCode, hl.operand_within.grow hr.pools, hr.operand_within])
    (by simp [threeWayCode, Instr.target?]) (by simp) fun hc => hc.append rfl
  refine Leaves.ofFresh (Work.cast ((hcode.drop hl.fresh).drop (hl.toWork.right_fresh hr.toWork))
    (hl.toWork.held_apart hr.toWork offered) id rfl ?_) ?_
  · simp [threeWayCode, hfits]
  · simp only [Draft.fills_drop]
    exact hw.fills (Draft.starts_pushAll _ _ _) rfl

theorem binary_lowers {result : Bank} {leftTy rightTy : Ty} {amount : Option Constant}
    (hbank : op.bank? b = some result) (hty : ty.bank? = some result) (hf : f.bank? = some b)
    (hg : g.bank? = some b) (hamount : amount.isSome → g.effect = {}) :
    Lowers t c (binary op ty leftTy rightTy amount x y)
      { bank? := some result
        effect := f.effect ++ g.effect ++
          ⟨true, [], misreadsPooled op amount f.isPooled g.isPooled⟩ } := by
  unfold binary
  cases op <;> dsimp only
  case add | sub | mul | div | mod | pow =>
    obtain rfl : result = b := by cases b <;> cases hbank <;> rfl
    exact arithmetic_lowers hx hy trivial hbank hty hf hg
  case lt | gt | le | ge =>
    obtain ⟨rfl, hb⟩ : result = .int ∧ (b = .int ∨ b = .float) := by
      cases b <;> cases hbank <;> simp
    exact order_lowers hx hy _ leftTy rightTy hb hf hg
  case eq | ne | approxEq =>
    obtain ⟨rfl, hb⟩ : result = .int ∧ b ≠ .string := by cases b <;> cases hbank <;> simp
    exact equality_lowers hx hy _ hb hf hg
  case threeWay =>
    obtain ⟨rfl, hb⟩ : result = .int ∧ (b = .int ∨ b = .float) := by
      cases b <;> cases hbank <;> simp
    exact threeWay_lowers hx hy leftTy rightTy hb hf hg
  case shl | shr | ushr =>
    obtain ⟨rfl, rfl⟩ : result = .int ∧ b = .int := by
      cases b <;> cases hbank
      simp
    cases amount with
    | none => exact shift_lowers hx hy _ hf hg
    | some n =>
      rw [hamount rfl]
      simpa [misreadsPooled] using shift_lowers_constant (y := y) hx _ n hf
  case bitAnd | bitOr | bitXor =>
    obtain ⟨rfl, rfl⟩ : result = .int ∧ b = .int := by
      cases b <;> cases hbank
      simp
    exact bitwise_lowers hx hy _ hf hg

end Binary

/-! ## Choices -/

section Choices

variable {t : Target} {c : Context} {x y z : Lowering Place} [Safe x] [Safe y] [Safe z]
  {f g k : Footprint}

/-- A test with a write for each outcome. -/
theorem Draft.fills_fork (d : Draft) (test yes no : Instr) (hop : test.op ≠ .jmp ∧ test.op ≠ .ijmp)
    (hyes : yes.target? = some (.int, n)) (hno : no.target? = some (.int, n)) :
    d.Fills (((((d.push test).push (.asbx .jmp (.imm 0) (2 : Nat))).push yes).push
      (.asbx .jmp (.imm 0) (1 : Nat))).push no) (.int, n) := by
  intro hdry
  have := hdry.of_fork test yes no (by simp) hop (by simp) (by simp) (by simp) ⟨hyes, hno⟩
  simp at this

theorem logical_lowers (hx : Lowers t c x f) (hy : Lowers t c y g) (op : LogicalOp)
    (hf : f.bank? = some .int) (hg : g.bank? = some .int) :
    Lowers t c (logical op x y) { bank? := some .int, effect := f.effect ++ g.effect } := by
  intro d p d' hd h
  simp only [logical, yields_steps] at h
  obtain ⟨l0, d1, hl, l, d2, hlreg, -, -, r0, d3, hr, r, d4, hrreg, -, n, offered, -, -, -, -, -,
    hshort, rfl, rfl⟩ := h
  -- The left operand gives its register up before its test.
  have hzero := d.within_store (.int 0)
  have hw0 := (Work.refl d).store (.int 0)
  have hl := (hx _ l0 d1 (hd.work hw0) hl).toRegister hlreg
  have hls := hl.operand_register hf rfl
  have hzero2 := hzero.grow hl.pools
  have hw2 := Work.emitAll ((hw0.trans hl.toWork).drop hl.fresh)
    [.abc (.equal .word true) (.imm (openOutcome op)) l.operand
      (.pool (some .int) (d.indexOf (.int 0))), .asbx .jmp (.imm 0) 0]
    (by simp [Instr.fits, Instr.fitsThree, hls, Equality.bank]) (by simpa [hls] using hzero2)
    (by simp [Instr.target?]) rfl
  have hd2 := hd.work hw2
  have hr := (hy _ r0 d3 hd2 hr).toRegister hrreg
  have hrs := hr.operand_register hg rfl
  have hzero4 := hzero2.grow (q := d4.pools) (by simpa using hr.pools)
  have hjump : d4.JumpAt (d2.code.length + 1) := Draft.JumpAt.later (by simp) hr.code
  have hfresh : ∀ s ∈ r.owned, s ∉ d.live :=
    fun s hs hlive => hr.fresh s hs ((hw2.live s).2 (.inl hlive))
  have hlen := hl.code.length_le
  have hlen' := hr.code.length_le
  have hw4 := ((hw2.trans hr.toWork).drop hfresh).take offered
  refine Leaves.ofFresh (Work.cast (Work.patch (Work.emitAll hw4 [_, _, _, _, _] ?_ ?_ ?_ rfl) ?_ ?_
    ?_ ?_ hshort) ?_ ?_ ?_ ?_) ?_
  · simp [Instr.fits, Instr.fitsThree, hrs, Equality.bank]
  · simpa [hrs] using hzero4
  · simp [Instr.target?]
  · simp [hjump]
  · simp only [Draft.code_store] at hlen
    simp
    omega
  · simp only [Draft.code_store, Draft.code_pushAll, Draft.code_drop, List.length_append] at hlen hlen'
    simp
    omega
  · simp
  · ext s
    simp
  · simp
  · simp
  · simp
  · have hfork := Draft.fills_fork ((d4.drop r).take .int n)
      (.abc (.equal .word true) (.imm (openOutcome op)) r.operand
        (.pool (some .int) (d.indexOf (.int 0))))
      (.asbx .li (.reg (some .int) n) (1 - earlyValue op))
      (.asbx .li (.reg (some .int) n) (earlyValue op)) (by simp [Instr.op]) rfl rfl
    refine (hfork.behind hw4.toGrows (by simp)).retargetTo ?_
      (i := .asbx .li (.reg (some .int) n) (earlyValue op)) ?_ rfl
    · simp [hjump]
    · simp only [Draft.code_pushAll, Draft.code_drop, List.length_append] at hlen'
      rw [Draft.code_retarget, List.getElem?_modify_ne]
      · simp
      · simp at hlen' ⊢
        omega

theorem conditional_lowers (hz : Lowers t c z k) (hx : Lowers t c x f) (hy : Lowers t c y g)
    (hk : k.bank? = some .int) (hf : f.bank? = ty.bank?) (hg : g.bank? = ty.bank?) :
    Lowers t c (conditional ty z x y)
      { bank? := ty.bank?
        isVoid := f.isVoid
        effect := k.effect ++ f.effect ++ g.effect ++
          ⟨ty.bank?.isSome, [], ty.bank?.isNone⟩ } := by
  intro d p d' hd h
  simp only [conditional, yields_bind, yields_pooledInt, yields_free, yields_emit,
    yields_jumpForward, yields_patch, yields_pure] at h
  obtain ⟨_, _, ⟨rfl, rfl⟩, q0, d1, hq, q, d2, hqreg, _, _, ⟨-, rfl⟩, _, _, ⟨-, rfl⟩, h⟩ := h
  obtain ⟨toFalse, _, ⟨hfalse, rfl⟩, out0, d3, hout, out, d4, hscratch, toEnd, _, ⟨hend, rfl⟩, h⟩ := h
  obtain ⟨_, _, ⟨hfalse', rfl⟩, other, d5, hother, _, d6, hcopy, _, _, ⟨-, rfl⟩, h⟩ := h
  obtain ⟨_, _, ⟨hleave, rfl⟩, rfl, rfl⟩ := h
  obtain rfl := yields_assign hcopy
  have hzero := d.within_store (.int 0)
  have hw0 := (Work.refl d).store (.int 0)
  have hq := (hz _ q0 d1 (hd.work hw0) hq).toRegister hqreg
  have hqs := hq.operand_register hk rfl
  have hw1 := (hw0.trans hq.toWork).emitAll
    [.abc (.equal .word true) (.imm 1) q.operand (.pool (some .int) (d.indexOf (.int 0))),
      .asbx .jmp (.imm 0) 0]
    (by simp [Instr.fits, Instr.fitsThree, hqs, Equality.bank])
    (by simpa [hqs] using hzero.grow hq.pools) (by simp [Instr.target?]) rfl
  have hw2 := hw1.drop hq.fresh
  rw [Draft.pushAll_cons, Draft.pushAll_cons, Draft.pushAll_nil, Draft.drop_push] at hw2
  have hd2 := hd.work hw2
  obtain ⟨hout, hfixed⟩ := (hx _ out0 d3 hd2 hout).toScratch hscratch
  have hw3 := (hw2.trans hout.toWork).emit (i := .asbx .jmp (.imm 0) 0) rfl (by simp) (by simp)
    rfl
  -- Both parts leave the value in the register that the first one took.
  have hlen := hq.code.length_le
  have hlen' := hout.code.length_le
  simp only [Draft.code_store, Draft.code_push, Draft.code_drop, List.length_append,
    List.length_singleton] at hfalse hlen hlen'
  have hjump : d4.JumpAt toFalse := Draft.JumpAt.later (by simp [hfalse]) hout.code
  have hw4 := hw3.patch (k := toFalse) (n := (d4.push (.asbx .jmp (.imm 0) 0)).code.length)
    (by simp [hjump]) (by omega) (by simp; omega) le_rfl hfalse'
  have hd4 := hd.work hw4
  have hother := hy _ other d5 hd4 hother
  have hend' : d5.JumpAt toEnd := Draft.JumpAt.later (by simp [hend]) hother.code
  have hpbank : p.bank? = ty.bank? := hout.bank.trans hf
  have hfresh : ∀ s ∈ other.owned, s ∉ d.live :=
    fun s hs hlive => hother.fresh s hs ((hw4.live s).2 (.inl hlive))
  have hapart : ∀ s ∈ p.owned, s ∉ other.owned := fun s hs hs' =>
    hother.fresh s hs' ((hw4.live s).2 (.inr (.inr hs)))
  have hfits := fits_copyOf hout.pooled hpbank (hother.bank.trans hg)
  refine Leaves.ofOwned (Work.cast (Work.patch (Work.drop (Work.push
    (k := ty.bank?.isSome) (w := []) (i := copyOf ty.bank? p other) (hw4.trans hother.toWork)
      (within_copyOf hout.pooled hother.operand_within) ?_ (by simp)
      (by simp [proceeds_copyOf])) hfresh) ?_ ?_ ?_ le_rfl hleave) ?_ ?_ ?_ ?_)
    hpbank (fun hnone => hout.void (hf.trans hnone)) hout.pooled hfixed hout.plain ?_
  · intro hsome s hs
    obtain ⟨b, hb⟩ := Option.isSome_iff_exists.1 hsome
    rw [hb, target?_copyOf _ hout.pooled, Option.some.injEq] at hs
    exact .inl (.inl (.inr (hs ▸ Place.mem_owned hout.pooled hfixed (hpbank.trans hb))))
  · simp [hend']
  · omega
  · have := hother.code.length_le
    simp only [Draft.code_retarget, List.length_modify, Draft.code_push, List.length_append] at this
    simp
    omega
  · ext s
    have := hapart s
    simp only [Set.mem_sdiff, Set.mem_union, Set.mem_empty_iff_false]
    tauto
  · simp
  · simp
  · simp [hfits]
  · intro b hb
    have hfirst := (hout.filled_of_own hout.pooled hfixed (hf.trans hb)).behind hw2.toGrows hout.code
    have hwet : ¬ Dry (d4.push (.asbx .jmp (.imm 0) 0)).code (b, p.number) d.code.length
        d4.code.length :=
      hfirst.not_dry (hw2.trans hout.toWork).toGrows (by simp) le_rfl
    have hwet := Draft.not_dry_patch (k := toFalse) (by simp [hjump]) hwet (by simp)
    have hcopied := hother.toWork.push (k := false) (w := []) (i := copyOf ty.bank? p other)
      (within_copyOf hout.pooled hother.operand_within) (by simp) (by simp)
      (by simp [proceeds_copyOf])
    have hwet := Draft.not_dry_later hw4.toGrows hcopied.toGrows hwet (by simp)
    refine Draft.Fills.retarget ?_ (by simp [hend']) ?_
    · rw [Draft.fills_drop]
      exact (hw4.trans hother.toWork).fills_push (by rw [hb, target?_copyOf _ hout.pooled])
    · rwa [Draft.code_drop, hend]

end Choices

end ActorScript
