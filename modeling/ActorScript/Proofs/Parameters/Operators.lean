import ActorScript.Proofs.Parameters.Drafts

/-! # The code of operators

The code of an operator is that of its operands, with instructions around it that take no part in
calls. Where it jumps over an operand, it lands where the same parameters wait.
-/

namespace ActorScript

open Lowering

/-! ## Tests -/

@[simp]
theorem Instr.role_tests (op : Op) [h : op.Tests] (a b c : Operand) :
    (Instr.abc op a b c).role = .test :=
  h.role _

@[simp]
theorem Instr.role_jump (offset : Int) : (Instr.asbx .jmp (.imm 0) offset).role = .jump := rfl

@[simp]
theorem Instr.role_li (a : Operand) (offset : Int) : (Instr.asbx .li a offset).role = .plain := rfl

@[simp]
theorem Instr.proceeds_tests (op : Op) [op.Tests] (a b c : Operand) (rest : Nat) :
    (Instr.abc op a b c).proceeds (rest + 1) = true :=
  Instr.proceeds_of_op (Op.Tests.proceeds op (Nat.succ_pos rest))

@[simp]
theorem Instr.proceeds_jump (offset : Int) (rest : Nat) :
    (Instr.asbx .jmp (.imm 0) offset).proceeds rest =
      (fitsOffset offset && decide (0 ≤ offset ∧ offset ≤ rest)) := rfl

@[simp]
theorem Instr.proceeds_li (a : Operand) (offset : Int) (rest : Nat) :
    (Instr.asbx .li a offset).proceeds rest = true := rfl

section Jumps

variable {t : Target} {d d1 d2 : Draft} {k q : Nat} {u : Unit}

theorem appends_forward (h : Yields t (liftM Assembly.jumpForward) d k d1) :
    d.Appends Layout.jump.roles d1 ∧ d1.Waits k := by
  obtain ⟨rfl, rfl⟩ := yields_jumpForward.1 h
  have happends : d.Appends Layout.jump.roles (d.push (.asbx .jmp (.imm 0) 0)) :=
    .pushAll [.asbx .jmp (.imm 0) 0] (by simp [Role.isIdle]) rfl
  exact ⟨happends, d.rests_end.mono happends, by simp [Draft.roles]⟩

theorem appends_test {d0 : Draft} {op : Op} [hop : op.Tests] {a b c : Operand}
    (h : Yields t (emit op a b c) d u d0) (hstill : d0.Appends [] d1)
    (hj : Yields t (liftM Assembly.jumpForward) d1 k d2) :
    d.Appends Layout.test.roles d2 ∧ d2.Waits k := by
  obtain ⟨-, rfl⟩ := yields_emit.1 h
  obtain ⟨hjump, hwaits⟩ := appends_forward hj
  have hne : op ≠ .jmp := by
    rintro rfl
    cases hop.role 0
  have htest : d.Appends [.test] (d.push (.abc op a b c)) := by
    have hpush := Draft.Appends.push (d := d) (i := .abc op a b c) hne
    rwa [Instr.role_tests] at hpush
  exact ⟨(htest.still hstill).trans hjump, hwaits⟩

theorem appends_free {p : Place} (h : Yields t (liftM p.free) d u d1) :
    d.Appends [] d1 := by
  obtain ⟨-, rfl⟩ := yields_free.1 h
  exact .of_code (by simp) (congrArg (·.2.1) (Draft.surroundings_drop d p))

/-- A test that decides whether one instruction is jumped over. -/
theorem appends_skipping {op : Op} [op.Tests] {a b c : Operand} {i : Instr}
    (hplain : i.role = .plain) (hproceeds : i.proceeds 0 = true) :
    d.Appends (Layout.seq .test .plain).roles
      (((d.push (.abc op a b c)).push (.asbx .jmp (.imm 0) 1)).push i) := by
  have happends := Draft.Appends.pushAll (d := d) [.abc op a b c, .asbx .jmp (.imm 0) 1, i]
    (by simp [Role.isIdle, hplain]) (by simp [fitsOffset, hproceeds])
  simpa [hplain] using happends

theorem appends_patch (hk : d.Waits k) (h : Yields t (liftM (Assembly.patch k)) d u d1) :
    d.Appends [] d1 := by
  obtain ⟨-, rfl⟩ := yields_patch.1 h
  exact .patchTo hk d.rests_end

theorem appends_patchTo (hk : d.Waits k) (hq : d.Rests q)
    (h : Yields t (liftM (Assembly.patchTo k q)) d u d1) : d.Appends [] d1 := by
  obtain ⟨-, rfl⟩ := yields_patchTo.1 h
  exact .patchTo hk hq

end Jumps

instance Quiet.truthOf (dest : Place) (comparison : Op) [comparison.Tests] (check : Nat)
    (b c : Operand) : Quiet (truthOf dest comparison check b c) := by
  refine ⟨inferInstance, fun t d u d' hy => ?_⟩
  simp only [Lowering.truthOf, yields_bind, yields_emit, yields_emitSigned, yields_skip] at hy
  obtain ⟨_, _, ⟨-, rfl⟩, _, _, ⟨-, rfl⟩, _, _, ⟨-, rfl⟩, -, rfl⟩ := hy
  have happends := Draft.Appends.pushAll (d := d) [.asbx .li dest.operand 0,
    .abc comparison (.imm check) b c, .asbx .jmp (.imm 0) 1, .asbx .li dest.operand 1]
    (by simp [Role.isIdle]) (by simp [fitsOffset])
  exact ⟨.seq .plain (.seq .test .plain), .seq .plain (.seq .test .plain), by simpa using happends⟩

/-! ## Conversions and operators -/

section Operators

variable {t : Target} {es : List Expr} {x l r : Lowering Place} [Safe x] [Safe l] [Safe r]

theorem convert_lays (hx : Lays t x es) (bank : Bank) (conversion : Conversion) :
    Lays t (convert x bank conversion) es :=
  hx.bind fun _ => .ofQuiet

/-- A test for zero is a test. -/
theorem tests_of_zeroTest {bank? : Option Bank} {dest : Place} {d d' : Draft} {test : Op × Operand}
    (h : Yields t (zeroTest bank? dest) d test d') : test.1.Tests := by
  unfold zeroTest at h
  split at h
  · simp only [yields_bind, yields_pure] at h
    obtain ⟨_, _, -, rfl, -⟩ := h
    infer_instance
  · simp only [yields_bind, yields_pure] at h
    obtain ⟨_, _, -, rfl, -⟩ := h
    infer_instance
  · obtain ⟨rfl, -⟩ := yields_pure.1 h
    infer_instance

theorem toBool_lays (hx : Lays t x es) : Lays t (toBool x) es := by
  refine hx.bind fun p => .bind .ofQuiet fun source => .bind .ofQuiet fun dest =>
    .bind .ofQuiet fun _ => .bindOf .ofQuiet ?_
  rintro d ⟨op, zero⟩ d1 hy
  have htests : op.Tests := tests_of_zeroTest hy
  exact .ofQuiet

theorem cast_lays (hx : Lays t x es) (kind : CastKind) (source : Ty) :
    Lays t (Lowering.cast kind source x) es := by
  cases kind with
  | bool => exact toBool_lays hx
  | _ => exact convert_lays hx _ _

theorem unary_lays (hx : Lays t x es) (op : UnaryOp) : Lays t (unary op x) es := by
  cases op <;> exact hx.bind fun _ => .ofQuiet

instance Quiet.stepBy (op : StepOp) (bank? : Option Bank) : Quiet (stepBy op bank?) := by
  unfold Lowering.stepBy
  cases op <;> infer_instance

theorem plain_of_stepBy {op : StepOp} {bank? : Option Bank} {d d' : Draft} {step : Op × Operand}
    (h : Yields t (stepBy op bank?) d step d') : step.1.Plain := by
  unfold stepBy at h
  cases op <;> split at h <;> simp only [yields_bind, yields_pure] at h <;>
    obtain ⟨_, _, -, rfl, -⟩ := h <;> infer_instance

theorem step_lays (hx : Lays t x es) (op : StepOp) (before byAddress : Bool) (ty : Ty) :
    Lays t (step op before byAddress ty x) es := by
  refine hx.bind fun place => .bindOf .ofQuiet ?_
  rintro d ⟨op, one⟩ d1 hy
  have hplain : op.Plain := plain_of_stepBy hy
  refine .bind .ofQuiet fun zero => ?_
  unfold stepVariable stepCell
  exact .ofQuiet

theorem withAssigned_lays (hx : Lays t x es) (place : Place) :
    Lays t (withAssigned place x) es := by
  intro d a d' hy
  simp only [withAssigned, yields_bind, yields_modifyAssigned, yields_pure] at hy
  obtain ⟨_, _, rfl, a', d1, hxy, _, _, rfl, rfl, rfl⟩ := hy
  obtain ⟨code, hpieces, happends⟩ := hx _ _ _ hxy
  exact ⟨code, hpieces, happends.roles_eq, happends.level, happends.loops⟩

theorem assignment_lays (hl : Lays t l es) (hr : Lays t r es) (byAddress : Bool) (ty : Ty) :
    Lays t (assignment byAddress ty l r) es :=
  hl.bind fun place => (withAssigned_lays hr place).bind fun _ => .ofQuiet

theorem assignedValue_lays (ty : Ty) : Lays t (assignedValue ty) es := by
  refine .getDraft fun d => ?_
  split
  · exact .unresolved
  · exact .ofQuiet

theorem arithmetic_lays (hl : Lays t l es) (hr : Lays t r es) (op : BinOp) (ty : Ty) :
    Lays t (arithmetic op ty l r) es := by
  refine hl.bind fun l => hr.bind fun r => ?_
  split
  exact .ofQuiet

theorem order_lays (hl : Lays t l es) (hr : Lays t r es) (op : BinOp) (leftTy rightTy : Ty) :
    Lays t (order op leftTy rightTy l r) es :=
  hl.bind fun _ => hr.bind fun _ => .ofQuiet

theorem equality_lays (hl : Lays t l es) (hr : Lays t r es) (op : BinOp) :
    Lays t (equality op l r) es := by
  refine hl.bind fun l => hr.bind fun r => ?_
  split
  exact .ofQuiet

theorem shift_lays (hl : Lays t l es) (hr : Lays t r es) (op : BinOp) (amount : Option Constant) :
    Lays t (shift op amount l r) es := by
  cases amount with
  | some c => exact hl.bind fun _ => .ofQuiet
  | none => exact hl.bind fun _ => hr.bind fun _ => .ofQuiet

theorem bitwise_lays (hl : Lays t l es) (hr : Lays t r es) (op : BinOp) :
    Lays t (bitwise op l r) es := by
  refine hl.bind fun l => hr.bind fun r => ?_
  split
  exact .ofQuiet

/-- The three outcomes are told apart by two tests. -/
theorem threeWay_lays (hl : Lays t l es) (hr : Lays t r es) (leftTy rightTy : Ty) :
    Lays t (threeWay leftTy rightTy l r) es := by
  refine hl.bind fun pl => hr.bind fun pr => .bind .ofQuiet fun dest => .bind .ofQuiet fun _ => ?_
  intro d out d' hy
  simp only [yields_bind] at hy
  obtain ⟨_, d1, hless, notLess, d2, hjump, _, d3, hli, less, d4, hjump', _, d5, hpatch, _, d6, hle,
    greater, d7, hjump'', _, d8, hli', _, d9, hpatch', _, d10, hpatch'', _, d11, hfree,
    _, d12, hfree', hout⟩ := hy
  obtain ⟨hw2, hnotLess⟩ := appends_test hless (.refl d1) hjump
  obtain ⟨first, hfirst, hw3⟩ := (Lays.ofQuiet : Lays t _ es) d2 _ d3 hli
  obtain ⟨hw4, hless⟩ := appends_forward hjump'
  have hw5 := appends_patch ((hnotLess.mono hw3).mono hw4) hpatch
  obtain ⟨hw7, hgreater⟩ := appends_test hle (.refl d6) hjump''
  obtain ⟨second, hsecond, hw8⟩ := (Lays.ofQuiet : Lays t _ es) d7 _ d8 hli'
  have hw9 := appends_patch (((hless.still hw5).mono hw7).mono hw8) hpatch'
  have hw10 := appends_patch ((hgreater.mono hw8).still hw9) hpatch''
  have hfreed := ((hw8.still hw9).still hw10).still (appends_free hfree)
  have hend := hfreed.still (appends_free hfree')
  obtain ⟨-, rfl⟩ := yields_pure.1 hout
  exact ⟨.seq .test (.seq first (.seq .jump (.seq .test second))),
    .seq .test (.seq hfirst (.seq .jump (.seq .test hsecond))),
    hw2.trans (hw3.trans ((hw4.still hw5).trans (hw7.trans hend)))⟩

/-- The code that decides is a block of its own, into which the jump over the right operand
leads. -/
theorem logical_lays (hl : Lays t l es) (hr : Lays t r es) (op : LogicalOp) :
    Lays t (logical op l r) es := by
  refine .bind .ofQuiet fun zero => hl.bind fun pl => .bind .ofQuiet fun left =>
    .bind .ofQuiet fun _ => ?_
  intro d out d' hy
  simp only [yields_bind] at hy
  obtain ⟨_, d1, htest, shortcut, d2, hjump, pr, d3, hright, right, d4, hreg, _, d5, hfree, dest,
    d6, halloc, hy⟩ := hy
  obtain ⟨hw2, hshortcut⟩ := appends_test htest (.refl d1) hjump
  obtain ⟨value, hvalue, hw3⟩ := hr d2 pr d3 hright
  obtain ⟨load, hload, hw4⟩ := (Lays.ofQuiet : Lays t _ es) d3 right d4 hreg
  obtain ⟨b, n, -, -, -, rfl⟩ := yields_alloc.1 halloc
  have hw6 : d5.Appends [] (d5.take b n) := .of_code rfl rfl
  have hw5 := (hw4.still (appends_free hfree)).still hw6
  simp only [yields_emit, yields_skip, yields_emitSigned, yields_position, yields_pure] at hy
  obtain ⟨_, _, ⟨-, rfl⟩, _, _, ⟨-, rfl⟩, _, _, ⟨-, rfl⟩, _, _, ⟨-, rfl⟩, target, _, ⟨rfl, rfl⟩,
    _, _, ⟨-, rfl⟩, u, d7, hpatch, -, rfl⟩ := hy
  let block : List Instr := [.abc (.equal .word true) (.imm (openOutcome op)) right.operand zero,
    .asbx .jmp (.imm 0) 2, .asbx .li dest.operand (1 - earlyValue op), .asbx .jmp (.imm 0) 1,
    .asbx .li dest.operand (earlyValue op)]
  have hidle : ∀ i ∈ block, i.role.isIdle = true := by simp [block, Role.isIdle]
  have hblock : (d5.take b n).Appends (Layout.seq .test (.seq .plain (.seq .jump .plain))).roles
      ((d5.take b n).pushAll block) := by
    have happends := Draft.Appends.pushAll (d := d5.take b n) _ hidle (by simp [block, fitsOffset])
    simp only [block, List.map_cons, Instr.role_tests, Instr.role_jump, Instr.role_li] at happends
    exact happends
  have hwaits := ((hshortcut.mono hw3).mono hw5).mono hblock
  have hrests := Draft.rests_pushAll (d := d5.take b n) (k := 4) hidle (by simp [block])
  have htarget : Yields t (liftM (Assembly.patchTo shortcut ((d5.take b n).code.length + 4)))
      ((d5.take b n).pushAll block) u d' := by simpa [block] using hpatch
  have hpatched := appends_patchTo hwaits hrests htarget
  exact ⟨.seq .test (.seq value (.seq load (.seq .test (.seq .plain (.seq .jump .plain))))),
    .seq .test (.seq hvalue (.seq hload (.seq .test (.seq .plain (.seq .jump .plain))))),
    hw2.trans (hw3.trans (hw5.trans (hblock.still hpatched)))⟩

theorem conditional_lays {cond : Lowering Place} [Safe cond] (hc : Lays t cond es)
    (hl : Lays t l es) (hr : Lays t r es) (ty : Ty) : Lays t (conditional ty cond l r) es := by
  refine .bind .ofQuiet fun zero => hc.bind fun pc => .bind .ofQuiet fun c => ?_
  intro d out d' hy
  simp only [yields_bind] at hy
  obtain ⟨_, d1, htest, _, d2, hfree, toFalse, d3, hjump, place, d4, htrue, scratch, d5, hscratch,
    toEnd, d6, hjump', _, d7, hpatch, other, d8, hfalse, _, d9, hassign, _, d10, hfree', _, d11,
    hpatch', hout⟩ := hy
  obtain ⟨hw3, htoFalse⟩ := appends_test htest (appends_free hfree) hjump
  obtain ⟨first, hfirst, hw4⟩ := hl d3 place d4 htrue
  obtain ⟨copy, hcopy, hw5⟩ := (Lays.ofQuiet : Lays t _ es) d4 scratch d5 hscratch
  obtain ⟨hw6, htoEnd⟩ := appends_forward hjump'
  have hw7 := appends_patch (((htoFalse.mono hw4).mono hw5).mono hw6) hpatch
  obtain ⟨second, hsecond, hw8⟩ := hr d7 other d8 hfalse
  obtain ⟨move, hmove, hw9⟩ := (Lays.ofQuiet : Lays t _ es) d8 _ d9 hassign
  have hw10 := hw9.still (appends_free hfree')
  have hw11 := appends_patch (((htoEnd.still hw7).mono hw8).mono hw10) hpatch'
  obtain ⟨-, rfl⟩ := yields_pure.1 hout
  exact ⟨.seq .test (.seq first (.seq copy (.seq .jump (.seq second move)))),
    .seq .test (.seq hfirst (.seq hcopy (.seq .jump (.seq hsecond hmove)))),
    hw3.trans (hw4.trans (hw5.trans ((hw6.still hw7).trans (hw8.trans (hw10.still hw11)))))⟩

theorem binary_lays (hl : Lays t l es) (hr : Lays t r es) (op : BinOp) (ty leftTy rightTy : Ty)
    (amount : Option Constant) : Lays t (binary op ty leftTy rightTy amount l r) es := by
  cases op with
  | add | sub | mul | div | mod | pow =>
    rw [binary]
    exact arithmetic_lays hl hr _ ty
  | lt | gt | le | ge =>
    rw [binary]
    exact order_lays hl hr _ leftTy rightTy
  | eq | ne | approxEq =>
    rw [binary]
    exact equality_lays hl hr _
  | threeWay =>
    rw [binary]
    exact threeWay_lays hl hr leftTy rightTy
  | shl | shr | ushr =>
    rw [binary]
    exact shift_lays hl hr _ amount
  | bitAnd | bitOr | bitXor =>
    rw [binary]
    exact bitwise_lays hl hr _

/-! ## Functions of numbers -/

theorem floatFn_lays (hx : Lays t x es) (fn : FloatFn) : Lays t (floatFn fn x) es :=
  hx.bind fun _ => .ofQuiet

theorem abs_lays (hx : Lays t x es) : Lays t (Lowering.abs x) es :=
  hx.bind fun _ => .ofQuiet

theorem atan2_lays (hl : Lays t l es) (hr : Lays t r es) : Lays t (atan2 l r) es :=
  hl.bind fun _ => .bind .ofQuiet fun _ => hr.bind fun _ => .ofQuiet

/-- An assignment to a register is one instruction. -/
theorem push_of_assign {bank? : Option Bank} {target source : Place} {d d' : Draft} {u : Unit}
    (h : Yields t (assign bank? target source) d u d') :
    ∃ i, i.role = .plain ∧ i.proceeds 0 = true ∧ d' = d.push i := by
  unfold assign at h
  split at h
  · exact ⟨_, rfl, rfl, (yields_emitWide.1 h).2⟩
  · exact ⟨_, rfl, rfl, (yields_emit.1 h).2⟩

/-- The next value is compared with the best one so far, and taken unless that is jumped over. -/
theorem improve_lays (hx : Lays t x es) (bank? : Option Bank) (op : Extremum) (best : Place) :
    Lays t (improve bank? op best x) es := by
  refine hx.bind fun value => ?_
  intro d u d' hy
  simp only [yields_bind, yields_emit, yields_skip] at hy
  obtain ⟨_, _, ⟨-, rfl⟩, _, _, ⟨-, rfl⟩, _, d1, hassign, hfree⟩ := hy
  obtain ⟨i, hplain, hproceeds, rfl⟩ := push_of_assign hassign
  exact ⟨.seq .test .plain, .seq .test .plain,
    (appends_skipping hplain hproceeds).still (appends_free hfree)⟩

theorem extremum_lays {args : List (Lowering Place)} (hsafe : ∀ x ∈ args, Safe x)
    (h : ∀ x ∈ args, Lays t x es) (ty : Ty) (op : Extremum) : Lays t (extremum ty op args) es := by
  cases args with
  | nil => exact Lays.ofQuiet (x := pure Place.nil)
  | cons first rest =>
    have hfirst := hsafe first (by simp)
    have himproves (best : Place) : Safe (rest.forM (improve ty.bank? op best)) :=
      Safe.forM fun x hx => by
        have := hsafe x (by simp [hx])
        infer_instance
    refine (h first (by simp)).bind fun p => .bind .ofQuiet fun best => .bind ?_ fun _ => .ofQuiet
    refine .forM fun x hx => ?_
    have := hsafe x (by simp [hx])
    exact ⟨inferInstance, improve_lays (h x (by simp [hx])) _ _ _⟩

/-! ## Fields and elements -/

theorem field_lays (hx : Lays t x es) (byAddress : Bool) (ty : Ty) (offset : Nat) :
    Lays t (field byAddress ty offset x) es := by
  refine hx.bind fun p => .bind .ofQuiet fun start => ?_
  unfold addressPast
  exact .ofQuiet

theorem element_lays (hl : Lays t l es) (hr : Lays t r es) (byAddress : Bool) (arrayTy : Ty)
    (position : Option Constant) : Lays t (element byAddress arrayTy position l r) es := by
  unfold element
  split
  · cases position with
    | some c =>
      refine hl.bind fun p => .bind .ofQuiet fun start => ?_
      unfold constantElement addressPast
      exact .ofQuiet
    | none =>
      refine hl.bind fun p => .bind .ofQuiet fun start =>
        hr.bind fun p => .bind .ofQuiet fun index => ?_
      unfold scaleIndex
      exact .ofQuiet
  · exact hl

end Operators

end ActorScript
