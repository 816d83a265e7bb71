import ActorScript.Proofs.Lowering.Trees

/-! # The code of settled statements

A statement adds code behind the code that is there. Jumps out of the innermost loop are left
open and recorded with it, and every loop closes the jumps of its own body.
-/

namespace ActorScript

open Lowering

variable {homes : Array (Option Place)} {e : Effect} {u : Unit} {ty : Ty} {check : Nat}
  {jumps : LoopJumps} {d1 : Draft} {x? : Option (Lowering Place)} {exit : Option Nat} {b : Bank}
  {id : LocalId}

/-! ## Homes -/

section Homes

variable {c : Context} {d d1 : Draft} {b : Bank} {n : Nat} {id : LocalId}

def Draft.withHomes (d : Draft) (homes : Array (Option Place)) : Draft :=
  { d with homes }

@[simp] theorem Draft.code_withHomes : (d.withHomes homes).code = d.code := rfl

@[simp] theorem Draft.pools_withHomes : (d.withHomes homes).pools = d.pools := rfl

@[simp] theorem Draft.live_withHomes : (d.withHomes homes).live = d.live := rfl

theorem Draft.homes_set {home? : Option Place} {v : LocalId} {place : Place}
    (h : (d.homes.setIfInBounds id home?)[v]? = some (some place)) :
    (v = id ∧ home? = some place) ∨ (v ≠ id ∧ d.homes[v]? = some (some place)) := by
  rw [Array.getElem?_setIfInBounds] at h
  split at h
  next heq =>
    split at h
    · exact .inl ⟨heq.symm, Option.some.inj h⟩
    · cases h
  next hne => exact .inr ⟨fun heq => hne heq.symm, h⟩

/-- A register that was not in use becomes the home of a variable. -/
theorem Sound.bindHome (hd : Sound c d) (hw : Work d {(b, n)} e d1)
    (hty : (c.types id).bank? = some b) (hc : c.target = none) :
    Sound c (d1.withHomes (d1.homes.setIfInBounds id (some (.fixed (some b) n)))) := by
  have hd1 := hd.work hw
  have hnew : (b, n) ∈ d1.live := (hw.live _).2 (.inr rfl)
  -- No other variable lives in a register that was free before.
  have hfree : ∀ v, ¬ d1.Home v (b, n) := fun v hv =>
    hw.fresh _ rfl (hd.home_live ((Draft.home_iff hw.surroundings).1 hv))
  have hcases {v : LocalId} {r : Register}
      (h : (d1.withHomes (d1.homes.setIfInBounds id (some (.fixed (some b) n)))).Home v r) :
      (v = id ∧ r = (b, n)) ∨ (v ≠ id ∧ d1.Home v r) := by
    obtain ⟨place, hplace, hbank, hnumber⟩ := h
    rcases Draft.homes_set hplace with ⟨rfl, heq⟩ | ⟨hne, hplace⟩
    · cases heq
      cases hbank
      exact .inl ⟨rfl, Prod.ext rfl hnumber.symm⟩
    · exact .inr ⟨hne, place, hplace, hbank, hnumber⟩
  exact {
    home := fun v place hplace => by
      rcases Draft.homes_set hplace with ⟨rfl, heq⟩ | ⟨-, hplace⟩
      · cases heq
        exact ⟨b, n, rfl, hty, hnew⟩
      · exact hd1.home v place hplace
    apart := fun v v' r hv hv' => by
      rcases hcases hv with ⟨hid, rfl⟩ | ⟨-, hold⟩
      · rcases hcases hv' with ⟨hid', -⟩ | ⟨-, hold'⟩
        · exact hid.trans hid'.symm
        · exact absurd hold' (hfree v')
      · rcases hcases hv' with ⟨-, rfl⟩ | ⟨-, hold'⟩
        · exact absurd hold (hfree v)
        · exact hd1.apart v v' r hold hold'
    implicit := fun k hk => by
      obtain ⟨hlive, hhome⟩ := hd.implicit k hk
      refine ⟨(hw.live _).2 (.inl hlive), fun v hv => ?_⟩
      rcases hcases hv with ⟨rfl, heq⟩ | ⟨-, hv⟩
      · exact hw.fresh _ rfl (heq ▸ hlive)
      · exact hhome v ((Draft.home_iff hw.surroundings).1 hv)
    target := by simp [hc] }

theorem Sound.releaseHome (hd : Sound c d) (hhome : d.homes[id]? = some (some (.fixed (some b) n)))
    (hc : c.target = none) :
    Sound c ((d.withHomes (d.homes.setIfInBounds id none)).give b n) := by
  have hid : d.Home id (b, n) := ⟨_, hhome, rfl, rfl⟩
  have hcases {v : LocalId} {r : Register}
      (h : ((d.withHomes (d.homes.setIfInBounds id none)).give b n).Home v r) :
      v ≠ id ∧ d.Home v r := by
    obtain ⟨place, hplace, hbank, hnumber⟩ := h
    rcases Draft.homes_set hplace with ⟨rfl, heq⟩ | ⟨hne, hplace⟩
    · cases heq
    · exact ⟨hne, place, hplace, hbank, hnumber⟩
  exact {
    home := fun v place hplace => by
      rcases Draft.homes_set hplace with ⟨rfl, heq⟩ | ⟨hne, hplace⟩
      · cases heq
      · obtain ⟨b', n', rfl, hty, hlive⟩ := hd.home v place hplace
        refine ⟨b', n', rfl, hty, Draft.mem_live_give.2 ⟨hlive, fun heq => hne ?_⟩⟩
        exact hd.apart v id (b, n) (heq ▸ ⟨_, hplace, rfl, rfl⟩) hid
    apart := fun v v' r hv hv' => hd.apart v v' r (hcases hv).2 (hcases hv').2
    implicit := fun k hk => by
      obtain ⟨hlive, hnone⟩ := hd.implicit k hk
      refine ⟨Draft.mem_live_give.2 ⟨hlive, fun heq => hnone id (heq ▸ hid)⟩, fun v hv => ?_⟩
      exact hnone v (hcases hv).2
    target := by simp [hc] }

theorem yields_releaseHome {t : Target} {d' : Draft} (hd : Sound c d)
    (h : Yields t (Lowering.releaseHome id) d u d') (hc : c.target = none) :
    Sound c d' ∧ d'.code = d.code ∧ d'.pools = d.pools ∧ d'.loops = d.loops ∧
      d'.homes.size = d.homes.size := by
  simp only [Lowering.releaseHome, yields_getDraft_bind] at h
  split at h
  next place hplace =>
    obtain ⟨b, n, rfl, -, -⟩ := hd.home id place hplace
    simp only [yields_steps, yields_modifyHomes] at h
    obtain ⟨_, _, rfl, hgive⟩ := h
    obtain ⟨-, rfl⟩ := yields_release.1 hgive
    exact ⟨hd.releaseHome hplace hc, rfl, rfl, rfl, Array.size_setIfInBounds⟩
  next =>
    obtain ⟨-, rfl⟩ := yields_pure.1 h
    exact ⟨hd, rfl, rfl, rfl, rfl⟩

end Homes

/-! ## Growth -/

def Draft.withLoops (d : Draft) (loops : List LoopJumps) : Draft :=
  { d with loops }

section Loops

variable {c : Context} {d d1 : Draft} {loops : List LoopJumps} {k : Nat}

@[simp] theorem Draft.code_withLoops : (d.withLoops loops).code = d.code := rfl
@[simp] theorem Draft.pools_withLoops : (d.withLoops loops).pools = d.pools := rfl
@[simp] theorem Draft.loops_withLoops : (d.withLoops loops).loops = loops := rfl
@[simp] theorem Draft.jumpAt_withLoops : (d.withLoops loops).JumpAt k ↔ d.JumpAt k := Iff.rfl

theorem Sound.withLoops (h : Sound c d) (loops : List LoopJumps) : Sound c (d.withLoops loops) where
  __ := h
  target target htarget := by
    obtain ⟨place, rest, hassigned, hplace⟩ := h.target target htarget
    exact ⟨place, rest, hassigned, { hplace with }⟩

/-- The loops around do not matter to the code. -/
theorem Grows.withLoops {clashes : Bool} {loops' : List LoopJumps}
    (h : Grows (d.withLoops loops) clashes d1) : Grows d clashes (d1.withLoops loops') where
  __ := h

end Loops

/-- Jumps out of the innermost loop were recorded with it. -/
def LoopJumps.record (breaks continues : List Nat) (jumps : LoopJumps) : LoopJumps :=
  { breaks := jumps.breaks ++ breaks, continues := jumps.continues ++ continues }

/-- The jumps out of the innermost loop that were made since wait for their targets. -/
def Draft.Records (d d' : Draft) : Prop :=
  ∃ breaks continues, d'.loops = d.loops.modifyHead (LoopJumps.record breaks continues) ∧
    d.Waiting d' (breaks ++ continues)

/-- A statement was lowered. -/
structure Passes (c : Context) (d : Draft) (clashes : Bool) (d' : Draft) : Prop
    extends Grows d clashes d' where
  sound : Sound c d'
  size : d'.homes.size = d.homes.size
  records : d.Records d'

namespace Passes

variable {c : Context} {d d1 d2 : Draft} {clashes clashes' : Bool}

theorem records_of_eq (h : d1.loops = d.loops) : d.Records d1 :=
  ⟨[], [], by
    rw [h]
    cases d.loops <;> simp [LoopJumps.record], by simp [Draft.Waiting]⟩

theorem ofWork (hd : Sound c d) (h : Work d ∅ e d1) : Passes c d e.clashes d1 where
  toGrows := h.toGrows
  sound := hd.work h
  size := congrArg Array.size (Draft.homes_eq h.surroundings)
  records := records_of_eq (Draft.loops_eq h.surroundings)

theorem trans (h : Passes c d clashes d1) (h' : Passes c d1 clashes' d2) :
    Passes c d (clashes || clashes') d2 where
  toGrows := h.toGrows.trans h'.toGrows
  sound := h'.sound
  size := h'.size.trans h.size
  records := by
    obtain ⟨breaks, continues, hloops, hwait⟩ := h.records
    obtain ⟨breaks', continues', hloops', hwait'⟩ := h'.records
    refine ⟨breaks ++ breaks', continues ++ continues', ?_, fun k hk => ?_⟩
    · rw [hloops', hloops]
      cases d.loops <;> simp [LoopJumps.record]
    · have hlen := h.code.length_le
      have hold := fun hk => hwait k hk
      have hnew := fun hk => hwait' k hk
      simp only [List.mem_append] at hk hold hnew
      by_cases hmem : k ∈ breaks ∨ k ∈ continues
      · exact ⟨(hold hmem).1, (hold hmem).2.later h'.code⟩
      · have := hnew (by tauto)
        exact ⟨hlen.trans this.1, this.2⟩

theorem patch (h : Passes c d clashes d1) {k n : Nat} (hj : d1.JumpAt k)
    (hk : d.code.length ≤ k) (hlow : d.code.length ≤ n) (hn : n ≤ d1.code.length)
    (hfits : fitsOffset (Assembly.jumpOffset k n) = true) :
    Passes c d clashes (d1.retarget k n) where
  toGrows := h.toGrows.patch hj hk hlow hn hfits
  sound := h.sound.mono rfl fun _ => id
  size := h.size
  records := by
    obtain ⟨breaks, continues, hloops, hwait⟩ := h.records
    exact ⟨breaks, continues, hloops, hwait.retarget _ _⟩

theorem jump (h : Passes c d clashes d1) :
    Passes c d clashes (d1.push (.asbx .jmp (.imm 0) 0)) := by
  have hw := (Work.refl d1).emit (i := .asbx .jmp (.imm 0) 0) rfl (by simp) (by simp) rfl
  simpa using h.trans (ofWork h.sound hw)

theorem jumpTo (h : Passes c d clashes d1) {target : Nat} (hlow : d.code.length ≤ target)
    (htarget : target ≤ d1.code.length)
    (hfits : fitsOffset (Assembly.jumpOffset d1.code.length target) = true) :
    Passes c d clashes
      (d1.push (.asbx .jmp (.imm 0) (Assembly.jumpOffset d1.code.length target))) where
  toGrows := h.toGrows.jumpTo hlow htarget hfits
  sound := h.sound.mono rfl fun _ => id
  size := h.size
  records := by
    obtain ⟨breaks, continues, hloops, hwait⟩ := h.records
    exact ⟨breaks, continues, hloops, hwait.later (by simp)⟩

end Passes

def Stmt.Performs (t : Target) (c : Context) (x : Lowering Unit) (clashes : Bool) : Prop :=
  ∀ d u d', Sound c d → Yields t x d u d' → Passes c d clashes d'

section Statements

variable {t : Target} {c : Context} {x : Lowering Place} {y z : Lowering Unit}
  {f : Footprint} {d d' : Draft} {p q : Bool}

theorem Stmt.Performs.pure : Stmt.Performs t c (Pure.pure ()) false := by
  intro d u d' hd h
  obtain ⟨-, rfl⟩ := yields_pure.1 h
  exact Passes.ofWork hd (Work.refl d')

theorem Stmt.Performs.andThen [Safe y] [Safe z] (hy : Stmt.Performs t c y p)
    (hz : Stmt.Performs t c z q) : Stmt.Performs t c (y >>= fun _ => z) (p || q) := by
  intro d u d' hd h
  obtain ⟨_, d1, hy', hz'⟩ := yields_bind.1 h
  have hp := hy d _ d1 hd hy'
  exact hp.trans (hz d1 u d' hp.sound hz')

theorem releaseAll_performs (hc : c.target = none) (locals : List LocalId) :
    Stmt.Performs t c (locals.forM releaseHome) false := by
  induction locals with
  | nil => exact Stmt.Performs.pure
  | cons id rest ih =>
    refine Stmt.Performs.andThen (p := false) (fun d u d' hd h => ?_) ih
    obtain ⟨hsound, hcode, hpools, hloops, hsize⟩ := yields_releaseHome hd h hc
    exact ⟨.of_code hcode (hpools ▸ .refl _), hsound, hsize, Passes.records_of_eq hloops⟩

theorem expression_performs [Safe x] (hx : Lowers t c x f) :
    Stmt.Performs t c (do
      let place ← x
      place.free) f.effect.clashes := by
  intro d u d' hd h
  simp only [yields_steps] at h
  obtain ⟨place, d1, hx', -, rfl⟩ := h
  have hl := hx d place d1 hd hx'
  exact Passes.ofWork hd ((hl.toWork.drop hl.fresh).cast (by ext; simp) id rfl rfl)

/-! ## Returns -/

theorem returnNothing_performs : Stmt.Performs t c returnNothing false := by
  intro d u d' hd h
  obtain ⟨-, rfl⟩ := yields_emit.1 h
  exact Passes.ofWork hd ((Work.refl d).emit rfl (by simp) (by simp [Instr.target?]) rfl)

/-- A value is returned by an instruction of its own. -/
theorem returnValue_performs [Safe x] (hx : Lowers t c x f) (hv : f.isVoid = true → ty = .void) :
    Stmt.Performs t c (returnValue ty x) f.effect.clashes := by
  intro d u d' hd h
  simp only [returnValue, yields_steps] at h
  obtain ⟨place, d1, hx', h⟩ := h
  have hl := hx d place d1 hd hx'
  rw [if_neg (by simp [hl.plain.1])] at h
  split at h
  next =>
    simp only [returnNothing, yields_steps] at h
    obtain ⟨-, -, rfl⟩ := h
    exact Passes.ofWork hd (((hl.toWork.emit rfl (by simp) (by simp [Instr.target?]) rfl).drop
      hl.fresh).cast (by ext; simp) id rfl rfl)
  next hty =>
    simp only [yields_steps] at h
    obtain ⟨-, -, rfl⟩ := h
    obtain ⟨b, hb⟩ : ∃ b, f.bank? = some b := by
      cases hb : f.bank? with
      | none => exact absurd (hv (hl.void hb)) hty
      | some b => exact ⟨b, rfl⟩
    have hpb := hl.bank.trans hb
    refine Passes.ofWork hd (Work.cast (Work.drop (Work.emit hl.toWork ?_
      (by simpa using hl.operand_within) (by simp [Instr.target?]) rfl) hl.fresh) (by ext; simp) id
      rfl rfl)
    cases hc : place.isConstant <;>
      simp [Instr.fits, Instr.fitsThree, Place.tagged_tag hpb, Place.operand, hpb, hc]

/-- The value was handed over by a tail call. -/
theorem returnValue_ends [Safe x] (hx : Ends t c x e) (ty : Ty) :
    Stmt.Performs t c (returnValue ty x) e.clashes := by
  intro d u d' hd h
  simp only [returnValue, yields_steps] at h
  obtain ⟨place, d1, hx', h⟩ := h
  obtain ⟨rfl, hw, -⟩ := hx d place d1 hd hx'
  obtain ⟨-, rfl⟩ := yields_pure.1 h
  exact Passes.ofWork hd hw

/-! ## Branches -/

/-- A condition was tested, and the jump behind the test waits for its target. -/
def Draft.Tests (d : Draft) (e : Effect) (k : Nat) (d' : Draft) : Prop :=
  Work d ∅ e d' ∧ d.Waiting d' [k]

theorem branchTest_spec [Safe x] (hx : Lowers t c x f) (hf : f.bank? = some .int) {k : Nat}
    (hd : Sound c d) (h : Yields t (branchTest x check) d k d') : d.Tests f.effect k d' := by
  simp only [branchTest, yields_steps] at h
  obtain ⟨c0, d1, hx', r, d2, hreg, -, -, rfl, rfl⟩ := h
  have hl := (hx d c0 d1 hd hx').toRegister hreg
  have hs := hl.operand_register hf rfl
  have hzero := d2.within_store (.int 0)
  have hlen := hl.code.length_le
  refine ⟨Work.cast (Work.drop (Work.emitAll (hl.toWork.store (.int 0)) [_, _] ?_ ?_ ?_ rfl)
    hl.fresh) (by ext; simp) id rfl rfl, ?_⟩
  · simp [Instr.fits, Instr.fitsThree, hs, Equality.bank]
  · simpa [hs] using hzero
  · simp
  · simp [Draft.Waiting]
    omega

theorem loopTest_spec [Safe x] (hx : Lowers t c x f) (hf : f.bank? = some .int) {k : Nat}
    (hd : Sound c d) (h : Yields t (loopTest x check) d k d') : d.Tests f.effect k d' := by
  simp only [loopTest, yields_steps] at h
  obtain ⟨c0, d1, hx', r, d2, hreg, -, -, rfl, rfl⟩ := h
  have hl := (hx d c0 d1 hd hx').toRegister hreg
  have hs := hl.operand_register hf rfl
  have hlen := hl.code.length_le
  have hw := (hl.toWork.emitAll
    [.abc .test r.operand (.imm check) (.imm 0), .asbx .jmp (.imm 0) 0]
    (by simp [Instr.fits, Instr.fitsThree, hs]) (by simp [hs]) (by simp [Instr.target?]) rfl).drop
    hl.fresh
  rw [Draft.pushAll_cons, Draft.pushAll_cons, Draft.pushAll_nil, Draft.drop_push] at hw
  refine ⟨hw.cast (by ext; simp) id rfl rfl, ?_⟩
  simp [Draft.Waiting]
  omega

theorem branch_performs [Safe x] [Safe y] (hx : Lowers t c x f) (hf : f.bank? = some .int)
    (check : Nat) (hy : Stmt.Performs t c y p) :
    Stmt.Performs t c (branch x check y none) (f.effect.clashes || p) := by
  intro d u d' hd h
  simp only [branch, yields_steps] at h
  obtain ⟨k, d1, htest, _, d2, hy', hfits, rfl⟩ := h
  obtain ⟨hw, hwait⟩ := branchTest_spec hx hf hd htest
  have hp := hy d1 _ d2 (hd.work hw) hy'
  obtain ⟨hle, hjump⟩ := hwait k (by simp)
  have hboth := (Passes.ofWork hd hw).trans hp
  exact hboth.patch (hjump.later hp.code) hle hboth.code.length_le le_rfl hfits

theorem branchElse_performs [Safe x] [Safe y] [Safe z] (hx : Lowers t c x f)
    (hf : f.bank? = some .int) (check : Nat) (hy : Stmt.Performs t c y p)
    (hz : Stmt.Performs t c z q) :
    Stmt.Performs t c (branch x check y (some z)) (f.effect.clashes || p || q) := by
  intro d u d' hd h
  simp only [branch, yields_steps] at h
  obtain ⟨k, d1, htest, _, d2, hy', hfits, _, d3, hz', hfits', rfl⟩ := h
  obtain ⟨hw, hwait⟩ := branchTest_spec hx hf hd htest
  have hp := hy d1 _ d2 (hd.work hw) hy'
  obtain ⟨hle, hjump⟩ := hwait k (by simp)
  have hfirst := ((Passes.ofWork hd hw).trans hp).jump
  have hlen := hfirst.code.length_le
  have hskip := hfirst.patch (k := k) (n := (d2.push (.asbx .jmp (.imm 0) 0)).code.length)
    (by simp [hjump.later hp.code]) hle hlen le_rfl hfits
  have hq := hz _ _ d3 hskip.sound hz'
  refine (hskip.trans hq).patch (Draft.JumpAt.later ?_ hq.code) ?_
    (hskip.trans hq).code.length_le le_rfl hfits'
  · exact Draft.jumpAt_retarget (by simp)
  · have := hw.code.length_le
    have := hp.code.length_le
    omega

/-! ## Loops -/

theorem yields_jump {kind : JumpKind} (h : Yields t (Lowering.jump kind) d u d') :
    ∃ jumps outer, d.loops = jumps :: outer ∧
      d' = { d.push (.asbx .jmp (.imm 0) 0) with
        loops := addJump kind d.code.length jumps :: outer } := by
  simp only [Lowering.jump, yields_bind, yields_jumpForward] at h
  obtain ⟨_, _, ⟨rfl, rfl⟩, h⟩ := h
  simp only [recordJump, yields_getDraft_bind] at h
  split at h
  next => exact absurd h not_yields_note
  next jumps outer hloops => exact ⟨jumps, outer, hloops, yields_modifyLoops.1 h⟩

theorem jump_performs (kind : JumpKind) : Stmt.Performs t c (Lowering.jump kind) false := by
  intro d u d' hd h
  obtain ⟨jumps, outer, hloops, rfl⟩ := yields_jump h
  have hp := (Passes.ofWork hd (Work.refl d)).jump
  have hjump : (d.push (.asbx .jmp (.imm 0) 0)).JumpAt d.code.length := by simp
  refine ⟨hp.toGrows.withLoops, hp.sound.withLoops _, hp.size, ?_⟩
  cases kind with
  | «break» =>
    exact ⟨[d.code.length], [], by simp [hloops, addJump, LoopJumps.record], fun k hk => by
      cases List.mem_singleton.1 hk
      exact ⟨le_refl _, hjump⟩⟩
  | «continue» =>
    exact ⟨[], [d.code.length], by simp [hloops, addJump, LoopJumps.record], fun k hk => by
      cases List.mem_singleton.1 hk
      exact ⟨le_refl _, hjump⟩⟩

theorem loopBody_spec [Safe y] (hy : Stmt.Performs t c y p) (hd : Sound c d)
    (h : Yields t (loopBody y) d jumps d') :
    Passes c d p d' ∧ d.Waiting d' (jumps.breaks ++ jumps.continues) := by
  simp only [loopBody, yields_steps, yields_modifyLoops, yields_getDraft] at h
  obtain ⟨_, _, rfl, _, d1, hbody, _, _, rfl, rfl, rfl⟩ := h
  have hp := hy (d.withLoops ({} :: d.loops)) _ _ (hd.withLoops _) hbody
  obtain ⟨breaks, continues, hloops, hwait⟩ := hp.records
  simp only [Draft.loops_withLoops, List.modifyHead_cons] at hloops
  refine ⟨⟨hp.toGrows.withLoops, hp.sound.withLoops _, hp.size,
    Passes.records_of_eq (by simp [hloops])⟩, ?_⟩
  exact fun k hk => hwait k (by simpa [hloops, LoopJumps.record] using hk)

def Tested (t : Target) (c : Context) (x? : Option (Lowering Place)) (clashes : Bool) : Prop :=
  (x? = none ∧ clashes = false) ∨
    ∃ x f, x? = some x ∧ Safe x ∧ Lowers t c x f ∧ f.bank? = some .int ∧ f.effect.clashes = clashes

theorem Tested.safe (h : Tested t c x? q) : ∀ x ∈ x?, Safe x := by
  rcases h with ⟨rfl, -⟩ | ⟨x, f, rfl, hsafe, -⟩
  · simp
  · simpa using hsafe

theorem loopTests_spec (hx : Tested t c x? q) (hd : Sound c d)
    (h : Yields t (x?.mapM fun x => loopTest x check) d exit d') :
    Passes c d q d' ∧ d.Waiting d' exit.toList := by
  rcases hx with ⟨rfl, rfl⟩ | ⟨x, f, rfl, hsafe, hx, hf, rfl⟩
  · obtain ⟨rfl, rfl⟩ := yields_pure.1 h
    exact ⟨Passes.ofWork hd (Work.refl _), by simp [Draft.Waiting]⟩
  · obtain ⟨k, htest, rfl⟩ := yields_map.1 h
    obtain ⟨hw, hwait⟩ := loopTest_spec hx hf hd htest
    exact ⟨Passes.ofWork hd hw, hwait⟩

/-- The jumps out of a loop lead into it or to its end. -/
theorem closeLoop_passes {next finish : Nat} (hp : Passes c d p d1)
    (hexit : d.Waiting d1 exit.toList) (hjumps : d.Waiting d1 (jumps.breaks ++ jumps.continues))
    (hnext : d.code.length ≤ next ∧ next ≤ d1.code.length)
    (hfinish : d.code.length ≤ finish ∧ finish ≤ d1.code.length)
    (h : Yields t (do
      exit.forM fun k => liftM (Assembly.patchTo k finish)
      patchLoop jumps next finish) d1 u d') : Passes c d p d' := by
  have hall : d.Waiting d1 (exit.toList ++ (jumps.breaks ++ jumps.continues)) := fun k hk =>
    (List.mem_append.1 hk).elim (hexit k) (hjumps k)
  suffices hend : Passes c d p d' ∧ d.Waiting d' (exit.toList ++ (jumps.breaks ++ jumps.continues)) ∧
      d'.code.length = d1.code.length from hend.1
  apply h.closeLoop ⟨hp, hall, rfl⟩
  rintro d2 k hk n hn hfits ⟨hp, hall, hlen⟩
  have hn' : d.code.length ≤ n ∧ n ≤ d1.code.length := by rcases hn with rfl | rfl <;> assumption
  exact ⟨hp.patch (hall k hk).2 (hall k hk).1 hn'.1 (hlen ▸ hn'.2) hfits, hall.retarget _ _,
    by simpa using hlen⟩

theorem rounds_performs [Safe y] (hx : Tested t c x? q) {step : Option (Lowering Unit)}
    (hsafe : ∀ z ∈ step, Safe z) {r : Bool} (hstep : Stmt.Performs t c (step.getD (pure ())) r)
    (hy : Stmt.Performs t c y p) (toStep : Bool) :
    Stmt.Performs t c (rounds toStep x? step y) (q || p || r) := by
  intro d u d' hd h
  have hsafe := safe_getD hsafe
  have htests := safe_loopTests hx.safe 0
  simp only [rounds, yields_steps] at h
  obtain ⟨exit, d1, htest, jumps, d2, hbody, _, d3, hstep', hback, hclose⟩ := h
  obtain ⟨hp1, hwait1⟩ := loopTests_spec hx hd htest
  obtain ⟨hp2, hwait2⟩ := loopBody_spec hy hp1.sound hbody
  have hp3 := hstep _ _ d3 hp2.sound hstep'
  have hlen := ((hp1.trans hp2).trans hp3).code.length_le
  have hloop := ((hp1.trans hp2).trans hp3).jumpTo le_rfl hlen hback
  refine closeLoop_passes hloop ?_ ?_ ?_ ⟨hloop.code.length_le, le_rfl⟩ (yields_bind.2 hclose)
  · exact hwait1.later (hp2.code.trans (hp3.code.trans (by simp)))
  · exact (hwait2.later (hp3.code.trans (by simp))).earlier hp1.code
  · have := (hp1.trans hp2).code.length_le
    have := hp3.code.length_le
    cases toStep <;> simp <;> omega

theorem doWhile_performs [Safe x] [Safe y] (hx : Lowers t c x f) (hf : f.bank? = some .int)
    (hy : Stmt.Performs t c y p) :
    Stmt.Performs t c (Lowering.doWhile y none x) (p || f.effect.clashes) := by
  intro d u d' hd h
  simp only [Lowering.doWhile, yields_steps] at h
  obtain ⟨jumps, d1, hbody, k, d2, htest, hback, hclose⟩ := h
  obtain ⟨hp1, hwait1⟩ := loopBody_spec hy hd hbody
  obtain ⟨hw, hwait⟩ := loopTest_spec hx hf hp1.sound htest
  obtain ⟨hle, hjump⟩ := hwait k (by simp)
  have hp2 := hp1.trans (Passes.ofWork hp1.sound hw)
  have hlen := hw.code.length_le
  have hloop := hp2.patch hjump (hp1.code.length_le.trans hle) le_rfl hp2.code.length_le hback
  refine closeLoop_passes hloop (by simp [Draft.Waiting]) ((hwait1.later hw.code).retarget _ _)
    ⟨hp1.code.length_le, ?_⟩ ⟨hloop.code.length_le, le_rfl⟩ hclose.withoutExit
  simp
  omega

/-- A condition known in advance is not tested. -/
theorem doWhileKnown_performs [Safe y] (hy : Stmt.Performs t c y p) (v : Constant) :
    Stmt.Performs t c (Lowering.doWhile y (some v) x) p := by
  intro d u d' hd h
  simp only [Lowering.doWhile, yields_steps] at h
  obtain ⟨jumps, d1, hbody, h⟩ := h
  obtain ⟨hp, hwait⟩ := loopBody_spec hy hd hbody
  split at h
  next =>
    simp only [yields_steps] at h
    obtain ⟨hback, hclose⟩ := h
    have hloop := hp.jumpTo le_rfl hp.code.length_le hback
    exact closeLoop_passes hloop (by simp [Draft.Waiting]) (hwait.later (by simp))
      ⟨hp.code.length_le, by simp⟩ ⟨hloop.code.length_le, le_rfl⟩ hclose.withoutExit
  next =>
    simp only [yields_steps] at h
    exact closeLoop_passes hp (by simp [Draft.Waiting]) hwait ⟨hp.code.length_le, le_rfl⟩
      ⟨hp.code.length_le, le_rfl⟩ h.withoutExit

/-! ## Declarations -/

/-- A register that was not in use becomes the home of a variable. -/
theorem Passes.bindHome {n : Nat} (hd : Sound c d) (hw : Work d {(b, n)} e d1)
    (hty : (c.types id).bank? = some b) (hc : c.target = none) :
    Passes c d e.clashes (d1.withHomes (d1.homes.setIfInBounds id (some (.fixed (some b) n)))) where
  __ := hw
  sound := hd.bindHome hw hty hc
  size := by simp [Draft.withHomes, Draft.homes_eq hw.surroundings]
  records := Passes.records_of_eq (congrArg (·.2.1) hw.surroundings)

/-- A variable got a register that was not in use, and the register its first value. -/
def Draft.Introduces (d : Draft) (id : LocalId) (r : Register) (e : Effect) (d' : Draft) : Prop :=
  ∃ d₁, Work d {r} e d₁ ∧ d.Fills d₁ r ∧
    d' = d₁.withHomes (d₁.homes.setIfInBounds id (some (.fixed (some r.1) r.2)))

theorem Draft.Introduces.passes {n : Nat} (h : d.Introduces id (b, n) e d') (hd : Sound c d)
    (hty : (c.types id).bank? = some b) (hc : c.target = none) : Passes c d e.clashes d' := by
  obtain ⟨d1, hw, -, rfl⟩ := h
  exact Passes.bindHome hd hw hty hc

/-- A variable starts with a value computed into its home. -/
theorem declare_spec [Safe x] (hx : Lowers t c x f) (hf : f.bank? = some b)
    (hty : ty.bank? = some b) (hd : Sound c d)
    (h : Yields t (Lowering.declare ty none x id) d u d') :
    ∃ n, d.Introduces id (b, n) f.effect d' := by
  simp only [Lowering.declare, Lowering.bindHome, yields_steps, yields_modifyHomes] at h
  obtain ⟨place, d1, hx', r, d2, hreg, rfl⟩ := h
  obtain ⟨hl, hfixed⟩ := (hx d place d1 hd hx').toScratch hreg
  have howned : r.owned = {(b, r.number)} := Place.owned_of_own hl.pooled hfixed (hl.bank.trans hf)
  rw [hty]
  exact ⟨r.number, d2, howned ▸ hl.toWork, hl.filled_of_own hl.pooled hfixed hf, rfl⟩

/-- A variable starts with a constant loaded into its home. -/
theorem declareKnown_spec [Safe x] (hx : Lowers t c x f) (v : Constant) (hf : f.bank? = some b)
    (hp : f.isPooled = true) (hclash : f.effect.clashes = false) (hty : ty.bank? = some b)
    (hd : Sound c d) (h : Yields t (Lowering.declare ty (some v) x id) d u d') :
    ∃ n e, e.clashes = false ∧ d.Introduces id (b, n) e d' := by
  simp only [Lowering.declare, Lowering.bindHome, hty] at h
  split at h
  next w hb hv =>
    cases hb
    simp only [yields_steps, yields_allocRegister, yields_modifyHomes] at h
    obtain ⟨n, _, ⟨_, hb, offered, rfl⟩, _, d1, hload, rfl⟩ := h
    cases hb
    have hw := (Work.refl d).take offered
    rw [Set.empty_union] at hw
    rcases yields_loadInt hload with rfl | rfl
    · exact ⟨n, _, rfl, _, hw.emit (by simp [Instr.fits]) (by simp) (by simp [Instr.target?]) rfl,
        hw.fills_push (by simp [Instr.target?]), rfl⟩
    · refine ⟨n, _, rfl, _, (hw.store (.int w)).emit (by simp [Instr.fits]) ?_
        (by simp [Instr.target?]) rfl, (hw.store (.int w)).fills_push (by simp [Instr.target?]), rfl⟩
      simpa using Draft.within_store _ (.int w)
  next =>
    simp only [yields_steps, yields_allocRegister, yields_modifyHomes] at h
    obtain ⟨place, d1, hx', n, _, ⟨_, hb, offered, rfl⟩, -, rfl⟩ := h
    cases hb
    have hl := hx d place d1 hd hx'
    have hw := hl.toWork.take offered
    rw [Place.owned_of_constant (hl.pooled.trans hp), Set.empty_union] at hw
    have hop : place.operand = .pool (some b) place.number := by simp [hl.operand hf, hp]
    have hin := hop ▸ hl.operand_within
    rw [hop, Op.loadConstant]
    exact ⟨n, _, hclash, _, hw.emit (by simp [Instr.fits]) (by simpa using hin)
      (by simp [Instr.target?]) rfl, hw.fills_push (by simp [Instr.target?]), rfl⟩

/-! ## Statements -/

theorem Expr.clashes_markTail (e : Expr) : e.markTail.clashes = e.clashes := by
  cases e <;> simp [Expr.markTail, Expr.clashes]

theorem Expr.clashes_of_constant {e : Expr} {v : Constant} (h : e.constant? = some v) :
    e.clashes = false := by
  cases e <;> simp [Expr.constant?] at h
  simp [Expr.clashes]

theorem Settled.returned {e : Expr} (h : Settled c false e) (hk : t.kind = c.kind) :
    Stmt.Performs t c (returnValue e.markTail.ty e.markTail.lower) e.markTail.clashes := by
  by_cases htail : e.markTail = e
  · rw [htail]
    exact returnValue_performs (h.performs hk) (by simp [Expr.footprint])
  · obtain ⟨effect, hclashes, hends⟩ := h.ends hk htail
    rw [Expr.clashes_markTail, ← hclashes]
    exact returnValue_ends hends _

theorem Settled.introduces {value : Expr} (h : Settled c false value) (hk : t.kind = c.kind)
    (hb : value.ty.bank? = some b) {span : Span} {name type : String} (hd : Sound c d)
    (hy : Yields t (Stmt.declare span name type (some value) (some id)).lower d u d') :
    ∃ n e, e.clashes = value.clashes ∧ d.Introduces id (b, n) e d' := by
  rw [Stmt.lower] at hy
  cases hknown : value.constant? with
  | none =>
    rw [hknown] at hy
    obtain ⟨n, hi⟩ := declare_spec (h.performs hk) hb hb hd hy
    exact ⟨n, _, rfl, hi⟩
  | some v =>
    have hclash := Expr.clashes_of_constant hknown
    have hpooled : value.isPooled = true := by
      cases value <;> simp [Expr.constant?] at hknown
      rfl
    rw [hknown] at hy
    rw [hclash]
    exact declareKnown_spec (h.performs hk) v hb hpooled hclash hb hd hy

theorem Context.Condition.tested {e : Expr} (h : c.Condition e) (hk : t.kind = c.kind) :
    Tested t c (some e.lower) e.clashes :=
  .inr ⟨_, _, rfl, inferInstance, h.1.performs hk, h.2, rfl⟩

/-- A condition known in advance is not tested. -/
theorem Context.Condition.testedUnlessKnown {e : Expr} (h : c.Condition e) (hk : t.kind = c.kind) :
    Tested t c (if e.isConstant then none else some e.lower) e.clashes := by
  split
  next hconst =>
    obtain ⟨v, hv⟩ := Option.isSome_iff_exists.1 hconst
    exact .inl ⟨rfl, Expr.clashes_of_constant hv⟩
  next => exact h.tested hk

theorem tested_lowerOption {e? : Option Expr} (h : ∀ e ∈ e?, c.Condition e) (hk : t.kind = c.kind) :
    Tested t c (lowerOption e?) (Expr.clashesOption e?) := by
  cases e? with
  | none => exact .inl ⟨rfl, rfl⟩
  | some e => exact (h e rfl).tested hk

theorem lowerBody_performs {body : List Stmt}
    (h : ∀ s ∈ body, Stmt.Performs t c s.lower s.clashes) :
    Stmt.Performs t c (lowerBody body) (Stmt.clashesAny body) := by
  induction body with
  | nil =>
    rw [lowerBody, Stmt.clashesAny]
    exact Stmt.Performs.pure
  | cons s rest ih =>
    rw [lowerBody, Stmt.clashesAny]
    exact (h s (by simp)).andThen (ih fun s hs => h s (by simp [hs]))

theorem SettledStmt.performs {s : Stmt} (h : SettledStmt c s) (hk : t.kind = c.kind)
    (hc : c.target = none) : Stmt.Performs t c s.lower s.clashes := by
  induction h with
  | nop =>
    rw [Stmt.lower, Stmt.clashes]
    exact Stmt.Performs.pure
  | expr hvalue =>
    rw [Stmt.lower, Stmt.clashes]
    exact expression_performs (hvalue.performs hk)
  | sequence _ ih =>
    rw [Stmt.lower, Stmt.clashes]
    exact lowerBody_performs ih
  | @block span body locals _ ih =>
    rw [Stmt.lower, Stmt.clashes, ← Bool.or_false (Stmt.clashesAny body)]
    exact (lowerBody_performs ih).andThen (releaseAll_performs hc locals)
  | @branch span cond whenTrue whenFalse hcond _ _ hsome iht ihf =>
    have hx := hcond.1.performs hk
    rw [Stmt.lower, Stmt.clashes]
    cases whenTrue with
    | none =>
      cases whenFalse with
      | none => exact absurd rfl (hsome rfl)
      | some z =>
        simp only [lowerBranch, Stmt.clashesOption, Bool.or_false]
        exact branch_performs hx hcond.2 0 (ihf z rfl)
    | some y =>
      cases whenFalse with
      | none =>
        simp only [lowerBranch, Stmt.clashesOption, Bool.or_false]
        exact branch_performs hx hcond.2 1 (iht y rfl)
      | some z =>
        simp only [lowerBranch, Stmt.clashesOption]
        exact branchElse_performs hx hcond.2 1 (iht y rfl) (ihf z rfl)
  | @whileLoop span cond body hcond _ ih =>
    rw [Stmt.lower, Stmt.clashes, whileLoop_eq_rounds, ← Bool.or_false (_ || _)]
    exact rounds_performs (hcond.testedUnlessKnown hk) (by simp) Stmt.Performs.pure ih false
  | @doWhile span body cond _ hcond ih =>
    rw [Stmt.lower, Stmt.clashes, Bool.or_comm]
    cases hknown : cond.constant? with
    | none => exact doWhile_performs (hcond.1.performs hk) hcond.2 ih
    | some v =>
      rw [Expr.clashes_of_constant hknown, Bool.or_false]
      exact doWhileKnown_performs ih v
  | @forLoop span cond step body hcond _ _ ihs ihb =>
    have hstep : Stmt.Performs t c ((lowerBranch step).getD (pure ())) (Stmt.clashesOption step) := by
      cases step with
      | none => exact Stmt.Performs.pure
      | some s => exact ihs s rfl
    rw [Stmt.lower, Stmt.clashes, lowerBranch, Stmt.clashesOption, Bool.false_or]
    exact rounds_performs (tested_lowerOption hcond hk) (safe_lowerBranch step) hstep ihb true
  | jump =>
    rw [Stmt.lower, Stmt.clashes]
    exact jump_performs _
  | @ret span value hvalue =>
    cases value with
    | none =>
      simp only [Option.map_none, Stmt.lower, Stmt.clashes, Expr.clashesOption]
      exact returnNothing_performs
    | some e =>
      simp only [Option.map_some, Stmt.lower, Stmt.clashes, Expr.clashesOption]
      exact (hvalue e rfl).returned hk
  | @declare span name type value id b hvalue hb hid =>
    rw [Stmt.clashes, Expr.clashesOption]
    intro d u d' hd h
    obtain ⟨n, e, hclash, hi⟩ := hvalue.introduces hk hb hd h
    exact hclash ▸ hi.passes hd hid hc

end Statements

end ActorScript
