import ActorScript.Proofs.Machine.Values

/-! # Operators compute

The code of a comparison puts 0 or 1 into a register of its own, by a test that skips the jump
over the last instruction. What it compares is what its operands compute.
-/

namespace ActorScript

open Lowering

variable {comparison : Op} {check n : Nat} {d : Draft} {l r : Place} {s : Registers}

/-! ## Idioms -/

namespace Program

variable {P : Program} {k n : Nat} {r : Registers}

/-- Code of a truth value runs to its end, and the register holds whether the test did not come
out as it was asked for. -/
theorem fills_truthOf {b c : Operand} {o : Bool}
    (hcode : P.Has k (truthCode n comparison check b c))
    (htest : (Instr.abc comparison (.imm check) b c).step? P.pools (r.setWord n 0) =
      some (r.setWord n 0, Instr.skipUnless o check)) :
    P.Fills k (truthCode n comparison check b c) r n
      (.word (if o = decide (check % 2 = 1) then 0 else 1)) := by
  simp only [truthCode, has_cons, has_nil, and_true, Nat.add_assoc] at hcode
  obtain ⟨hclear, hcompare, hskip, hset⟩ := hcode
  have hmem (j : Nat) (hj : j < 4) : k + j ∈ Set.Ico k (k + 4) := ⟨Nat.le_add_right k j, by omega⟩
  change ∃ r', P.Runs (Set.Ico k (k + 4)) k r (k + 4) r' ∧ _
  have hclear : P.Runs (Set.Ico k (k + 4)) k r (k + 1) (r.setWord n 0) :=
    .step (hmem 0 (by omega)) hclear rfl (by omega) .done
  by_cases ho : o = decide (check % 2 = 1)
  · refine ⟨r.setWord n 0, hclear.trans ?_, fun S hS => .setWord hS 0, by simp [Registers.Has, ho]⟩
    refine .step (hmem 1 (by omega)) hcompare htest (l := k + 2) ?_ ?_
    · simp [Instr.skipUnless, ho]
      omega
    · exact .step (hmem 2 (by omega)) hskip rfl (by omega) .done
  · refine ⟨(r.setWord n 0).setWord n 1, hclear.trans ?_,
      fun S hS => (Registers.Agree.setWord hS 0).trans (.setWord hS 1), by simp [Registers.Has, ho]⟩
    refine .step (hmem 1 (by omega)) hcompare htest (l := k + 3) ?_ ?_
    · simp [Instr.skipUnless, ho]
      omega
    · exact .step (hmem 3 (by omega)) hset rfl (by omega) .done

theorem fills_threeWay {less notGreater : Op} {b c : Operand} {isLess isNotGreater : Bool}
    (hcode : P.Has k (threeWayCode n less notGreater b c))
    (hless : (Instr.abc less (.imm 0) b c).step? P.pools (r.setWord n 1) =
      some (r.setWord n 1, Instr.skipUnless isLess 0))
    (hnotGreater : (Instr.abc notGreater (.imm 0) b c).step? P.pools (r.setWord n 1) =
      some (r.setWord n 1, Instr.skipUnless isNotGreater 0)) :
    P.Fills k (threeWayCode n less notGreater b c) r n
      (.word (if isLess then -1 else if isNotGreater then 0 else 1)) := by
  simp only [threeWayCode, has_cons, has_nil, and_true, Nat.add_assoc] at hcode
  obtain ⟨hone, hless', hnotLess, hminus, htoEnd, hnotGreater', hgreater, hzero⟩ := hcode
  have hmem (j : Nat) (hj : j < 8) : k + j ∈ Set.Ico k (k + 8) := ⟨Nat.le_add_right k j, by omega⟩
  change ∃ r', P.Runs (Set.Ico k (k + 8)) k r (k + 8) r' ∧ _
  have hone : P.Runs (Set.Ico k (k + 8)) k r (k + 1) (r.setWord n 1) :=
    .step (hmem 0 (by omega)) hone rfl (by omega) .done
  cases isLess with
  | true =>
    refine ⟨(r.setWord n 1).setWord n (-1), hone.trans ?_,
      fun S hS => (Registers.Agree.setWord hS 1).trans (.setWord hS (-1)),
      by simp [Registers.Has]⟩
    refine .step (hmem 1 (by omega)) hless' hless (l := k + 3)
      (by simp [Instr.skipUnless]; omega) ?_
    refine .step (hmem 3 (by omega)) hminus rfl (l := k + 4) (by omega) ?_
    exact .step (hmem 4 (by omega)) htoEnd rfl (by omega) .done
  | false =>
    have hback : P.Runs (Set.Ico k (k + 8)) (k + 1) (r.setWord n 1) (k + 5) (r.setWord n 1) := by
      refine .step (hmem 1 (by omega)) hless' hless (l := k + 2)
        (by simp [Instr.skipUnless]; omega) ?_
      exact .step (hmem 2 (by omega)) hnotLess rfl (by omega) .done
    cases isNotGreater with
    | true =>
      refine ⟨(r.setWord n 1).setWord n 0, hone.trans (hback.trans ?_),
        fun S hS => (Registers.Agree.setWord hS 1).trans (.setWord hS 0), by simp [Registers.Has]⟩
      refine .step (hmem 5 (by omega)) hnotGreater' hnotGreater (l := k + 7)
        (by simp [Instr.skipUnless]; omega) ?_
      exact .step (hmem 7 (by omega)) hzero rfl (by omega) .done
    | false =>
      refine ⟨r.setWord n 1, hone.trans (hback.trans ?_), fun S hS => .setWord hS 1,
        by simp [Registers.Has]⟩
      refine .step (hmem 5 (by omega)) hnotGreater' hnotGreater (l := k + 6)
        (by simp [Instr.skipUnless]; omega) ?_
      exact .step (hmem 6 (by omega)) hgreater rfl (by omega) .done

end Program

/-! ## Comparisons of numbers -/

def Relation.between (relation : Relation) (unsigned : Bool) : Datum → Datum → Bool
  | .word a, .word b => if unsigned then relation.ofUnsigned a b else relation.ofWords a b
  | .float a, .float b => relation.ofFloats a b
  | _, _ => false

/-- Whether two numbers of one bank count as equal. -/
def Datum.equals (approximate : Bool) : Datum → Datum → Bool
  | .word a, .word b => a == b
  | .float a, .float b => if approximate then nearlyEqual a b else a == b
  | _, _ => false

section Outcomes

variable {pools : Pools} {r : Registers} {p q : Place} {v w : Datum}

theorem outcome?_compare (relation : Relation) (leftTy rightTy : Ty) (check : Nat)
    (hp : p.bank? = some v.bank) (hbank : v.bank = w.bank) (hpv : r.Reads pools p v)
    (hqw : r.Reads pools q w) (hpooled : ¬ (p.isConstant ∧ q.isConstant)) :
    (Op.compare relation (comparandOf p.bank? leftTy rightTy) (formOf p q)).outcome? pools r check
      p.operand.value q.operand.value =
        some (relation.between (leftTy.isUnsigned && rightTy.isUnsigned) v w) := by
  have hform : (formOf p q).leftPooled = p.isConstant ∧ (formOf p q).rightPooled = q.isConstant := by
    unfold formOf
    cases hpc : p.isConstant <;> cases hqc : q.isConstant <;>
      simp_all [Form.leftPooled, Form.rightPooled]
  rw [hp, p.value_operand, q.value_operand]
  cases v with
  | float a =>
    cases w with
    | word b => cases hbank
    | float b =>
      simp only [Registers.Reads] at hpv hqw
      simp [Op.outcome?, comparandOf, Datum.bank, hform, hpv, hqw, Relation.between]
  | word a =>
    cases w with
    | float b => cases hbank
    | word b =>
      simp only [Registers.Reads] at hpv hqw
      cases hu : leftTy.isUnsigned && rightTy.isUnsigned <;>
        simp [Op.outcome?, comparandOf, Datum.bank, hform, hpv, hqw, Relation.between, hu]

theorem outcome?_equal (check : Nat) (hp : p.bank? = some v.bank) (hbank : v.bank = w.bank)
    (hpv : r.Reads pools p v) (hqw : r.Reads pools q w) (hpooled : p.isConstant = false) :
    (Op.equal (equalityOf p.bank?) q.isConstant).outcome? pools r check p.operand.value
      q.operand.value = some (v.equals (check / 2 % 2 = 1) w) := by
  rw [hp, p.value_operand, q.value_operand]
  cases v with
  | float a =>
    cases w with
    | word b => cases hbank
    | float b =>
      simp only [Registers.Reads, Registers.floatAt, hpooled, Bool.false_eq_true, if_false,
        Option.some.injEq] at hpv
      simp only [Registers.Reads] at hqw
      simp [Op.outcome?, equalityOf, Datum.bank, hpv, hqw, Datum.equals]
  | word a =>
    cases w with
    | float b => cases hbank
    | word b =>
      simp only [Registers.Reads, Registers.wordAt, hpooled, Bool.false_eq_true, if_false,
        Option.some.injEq] at hpv
      simp only [Registers.Reads] at hqw
      simp [Op.outcome?, equalityOf, Datum.bank, hpv, hqw, Datum.equals]

end Outcomes

def orderHolds (op : BinOp) (unsigned : Bool) (v w : Datum) : Bool :=
  (relationOf op).1.between unsigned v w != decide ((relationOf op).2 % 2 = 1)

def equalityHolds (op : BinOp) (v w : Datum) : Bool :=
  v.equals (outcomeOf op / 2 % 2 = 1) w != decide (outcomeOf op % 2 = 1)

def threeWayOf (unsigned : Bool) (v w : Datum) : Int32 :=
  if Relation.lt.between unsigned v w then -1
  else if Relation.le.between unsigned v w then 0
  else 1

section Binary

variable {P : Program} {t : Target} {c : Context} {env : LocalId → Datum} {x y : Lowering Place}
  {f g : Footprint} {v w : Datum} (hx : Lowers t c x f) (hy : Lowers t c y g)
  (hf : f.bank? = some v.bank) (hg : g.bank? = some w.bank)

include hx hy hf hg

/-- Writing a register that is not in use leaves both operands where they are. -/
theorem reads_setWord {d1 d2 : Draft} (hd : Sound c d) (hl : Yields t x d l d1)
    (hr : Yields t y d1 r d2) (hfree : (.int, n) ∉ d2.live) (hlv : s.Reads P.pools l v)
    (hrw : s.Reads P.pools r w) (u : Int32) :
    (s.setWord n u).Reads P.pools l v ∧ (s.setWord n u).Reads P.pools r w := by
  have hl' := hx d l d1 hd hl
  have hd1 := hd.work hl'.toWork
  have hr' := hy d1 r d2 hd1 hr
  have hset : s.Agree d2.live (s.setWord n u) := .setWord hfree u
  exact ⟨hl'.keeps hd hf hlv (hset.mono fun q hq => (hr'.live q).2 (.inl hq)),
    hr'.keeps hd1 hg hrw hset⟩

variable (hxv : Computes P t c env x v) (hyw : Computes P t c env y w)

include hxv hyw

omit hg in
/-- Both operands, one after the other: the first stays where it is. -/
theorem computes_pair {d1 d2 : Draft} (hd : Sound c d) (hl : Yields t x d l d1)
    (hr : Yields t y d1 r d2) (hcode : P.Has d.code.length (d.since d2))
    (hpools : Pools.Grow d2.pools P.pools) (hs : d.Binds env s) :
    ∃ s', P.Runs (Set.Ico d.code.length d2.code.length) d.code.length s d2.code.length s' ∧
      s.Agree d.live s' ∧ s'.Reads P.pools l v ∧ s'.Reads P.pools r w := by
  have hl' := hx d l d1 hd hl
  have hd1 := hd.work hl'.toWork
  have hr' := hy d1 r d2 hd1 hr
  obtain ⟨hcode1, hcode2⟩ := (Program.has_since_trans hl'.code hr'.code).1 hcode
  obtain ⟨s1, hrun1, hagree1, hreads1⟩ :=
    hxv d l d1 s hd hl hcode1 (hr'.pools.trans hpools) hs
  have hs1 : d1.Binds env s1 := (hs.agree hd hagree1).later hl'.surroundings
  obtain ⟨s2, hrun2, hagree2, hreads2⟩ := hyw d1 r d2 s1 hd1 hr hcode2 hpools hs1
  refine ⟨s2, hrun1.through hrun2 hl'.code hr'.code, ?_, hl'.keeps hd hf hreads1 hagree2, hreads2⟩
  exact hagree1.trans (hagree2.mono fun q hq => (hl'.live q).2 (.inl hq))

omit hg in
/-- A block of code behind two operands that leaves a number in a register that was free before
them. -/
theorem computes_block {d1 d2 d' : Draft} {block : List Instr} {u : Datum} (hd : Sound c d)
    (hl : Yields t x d l d1) (hr : Yields t y d1 r d2) (hfree : (u.bank, n) ∉ d.live)
    (hblock : d'.code = d2.code ++ block) (hcode : P.Has d.code.length (d.since d'))
    (hpools : Pools.Grow d2.pools P.pools) (hs : d.Binds env s)
    (hruns : ∀ s : Registers, P.Has d2.code.length block → s.Reads P.pools l v →
      s.Reads P.pools r w → P.Fills d2.code.length block s n u) :
    ∃ s', P.Runs (Set.Ico d.code.length d'.code.length) d.code.length s d'.code.length s' ∧
      s.Agree d.live s' ∧ s'.Reads P.pools (.fresh u.bank n) u := by
  have hl' := hx d l d1 hd hl
  have hr' := hy d1 r d2 (hd.work hl'.toWork) hr
  have hpre := hl'.code.trans hr'.code
  obtain ⟨hcode2, hbehind⟩ := (Program.has_behind hpre hblock).1 hcode
  obtain ⟨s2, hrun, hagree, hlv, hrw⟩ :=
    computes_pair hx hy hf hxv hyw hd hl hr hcode2 hpools hs
  exact (hruns s2 hbehind hlv hrw).behind hpre hblock hrun hagree hfree

/-- The truth value of a comparison of two operands, in a register that was free. -/
theorem computes_truth {d1 d2 d' : Draft} {l' r' : Place} {first second : Operand} {o : Bool}
    (hd : Sound c d) (hl : Yields t x d l d1) (hr : Yields t y d1 r d2) (offered : d2.Offers .int n)
    (hblock : d' = (((d2.take .int n).drop l').drop r').pushAll
      (truthCode n comparison check first second))
    (hcode : P.Has d.code.length (d.since d')) (hpools : Pools.Grow d'.pools P.pools)
    (hs : d.Binds env s)
    (houtcome : ∀ s : Registers, s.Reads P.pools l v → s.Reads P.pools r w →
      (Instr.abc comparison (.imm check) first second).step? P.pools s =
        some (s, Instr.skipUnless o check)) :
    ∃ s', P.Runs (Set.Ico d.code.length d'.code.length) d.code.length s d'.code.length s' ∧
      s.Agree d.live s' ∧ s'.Reads P.pools (.fresh .int n)
        (.ofBool (o != decide (check % 2 = 1))) := by
  have hl' := hx d l d1 hd hl
  have hr' := hy d1 r d2 (hd.work hl'.toWork) hr
  have hfree : (.int, n) ∉ d.live := fun h =>
    offered.not_live ((hr'.live _).2 (.inl ((hl'.live _).2 (.inl h))))
  refine computes_block (u := .ofBool (o != decide (check % 2 = 1))) hx hy hf hxv hyw hd hl hr hfree
    (by simp [hblock]; rfl) hcode (by simpa [hblock] using hpools) hs fun s hhas hlv hrw => ?_
  obtain ⟨hlv, hrw⟩ := reads_setWord hx hy hf hg hd hl hr offered.not_live hlv hrw 0
  have hfills := Program.fills_truthOf hhas (houtcome _ hlv hrw)
  cases o <;> cases hc : decide (check % 2 = 1) <;> simpa [hc, Datum.ofBool] using hfills

variable [Safe x] [Safe y]

theorem order_computes (op : BinOp) (leftTy rightTy : Ty)
    (hbank : v.bank = w.bank) (hpooled : ¬ (f.isPooled ∧ g.isPooled)) :
    Computes P t c env (order op leftTy rightTy x y)
      (.ofBool (orderHolds op (leftTy.isUnsigned && rightTy.isUnsigned) v w)) := by
  intro d p d' s hd h hcode hpools hs
  simp only [order, yields_steps] at h
  obtain ⟨l, d1, hl, r, d2, hr, n, offered, -, -, _, _, htruth, rfl, rfl⟩ := h
  obtain rfl := yields_truthOf htruth
  have hl' := hx d l d1 hd hl
  have hr' := hy d1 r d2 (hd.work hl'.toWork) hr
  refine computes_truth hx hy hf hg hxv hyw hd hl hr offered rfl hcode hpools hs
    fun s hlv hrw => ?_
  have houtcome := outcome?_compare (relationOf op).1 leftTy rightTy (relationOf op).2
    (hl'.bank.trans hf) hbank hlv hrw (by rwa [hl'.pooled, hr'.pooled])
  simp only [Instr.step?, Instr.stepThree?, Operand.value_imm, houtcome, Option.map_some]

theorem equality_computes (op : BinOp) (hbank : v.bank = w.bank)
    (hpooled : f.isPooled = false ∨ g.isPooled = false ∧ v.bank = .int) :
    Computes P t c env (equality op x y) (.ofBool (equalityHolds op v w)) := by
  intro d p d' s hd h hcode hpools hs
  simp only [equality, yields_steps] at h
  obtain ⟨l, d1, hl, r, d2, hr, n, offered, -, -, _, _, htruth, rfl, rfl⟩ := h
  obtain rfl := yields_truthOf htruth
  have hl' := hx d l d1 hd hl
  have hr' := hy d1 r d2 (hd.work hl'.toWork) hr
  refine computes_truth hx hy hf hg hxv hyw hd hl hr offered rfl hcode hpools hs
    fun s hlv hrw => ?_
  cases hlc : l.isConstant with
  | false =>
    have houtcome := outcome?_equal (outcomeOf op) (hl'.bank.trans hf) hbank hlv hrw hlc
    simp only [constantLast, hlc, Bool.false_eq_true, if_false, Instr.step?, Instr.stepThree?,
      Operand.value_imm, houtcome, Option.map_some]
  | true =>
    -- Two words are equal whichever of them comes first.
    obtain ⟨hrc, hint⟩ : r.isConstant = false ∧ v.bank = .int := by
      rcases hpooled with h | ⟨h, hint⟩
      · simp [hl'.pooled, h] at hlc
      · exact ⟨hr'.pooled.trans h, hint⟩
    have houtcome := outcome?_equal (outcomeOf op) (hr'.bank.trans hg) hbank.symm hrw hlv hrc
    have hcomm : w.equals (outcomeOf op / 2 % 2 = 1) v = v.equals (outcomeOf op / 2 % 2 = 1) w := by
      cases v <;> cases w <;> simp_all [Datum.bank, Datum.equals, Bool.beq_comm]
    rw [hcomm, hlc] at houtcome
    simp only [constantLast, hlc, if_true, Instr.step?, Instr.stepThree?, Operand.value_imm,
      houtcome, Option.map_some]

theorem threeWay_computes (leftTy rightTy : Ty) (hbank : v.bank = w.bank)
    (hpooled : ¬ (f.isPooled ∧ g.isPooled)) :
    Computes P t c env (Lowering.threeWay leftTy rightTy x y)
      (.word (threeWayOf (leftTy.isUnsigned && rightTy.isUnsigned) v w)) := by
  intro d p d' s hd h hcode hpools hs
  obtain ⟨l, d1, r, d2, n, hl, hr, offered, rfl, rfl⟩ := yields_threeWay h
  have hl' := hx d l d1 hd hl
  have hr' := hy d1 r d2 (hd.work hl'.toWork) hr
  have hfree : (.int, n) ∉ d.live := fun h =>
    offered.not_live ((hr'.live _).2 (.inl ((hl'.live _).2 (.inl h))))
  refine computes_block (u := .word _) hx hy hf hxv hyw hd hl hr hfree
    (by rw [Draft.code_drop, Draft.code_drop, Draft.code_pushAll, Draft.code_take]) hcode
    (by simpa using hpools) hs fun s hhas hlv hrw => ?_
  obtain ⟨hlv, hrw⟩ := reads_setWord hx hy hf hg hd hl hr offered.not_live hlv hrw 1
  have houtcome (relation : Relation) := outcome?_compare relation leftTy rightTy 0
    (hl'.bank.trans hf) hbank hlv hrw (by rwa [hl'.pooled, hr'.pooled])
  refine Program.fills_threeWay hhas ?_ ?_
  · simp only [Instr.step?, Instr.stepThree?, Operand.value_imm, houtcome, Option.map_some]
  · simp only [Instr.step?, Instr.stepThree?, Operand.value_imm, houtcome, Option.map_some]

end Binary

end ActorScript
