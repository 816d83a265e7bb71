import ActorScript.Proofs.Lowering.Functions

/-! # Where variables have their registers

A variable has a register from the end of its declaration to the end of the block. The code in
between is entered only at the start of the declaration, and the declaration is left only with the
register written. Neither changes when more code is added, nor when the jumps out of a loop get
their targets. A declaration that is a branch or the body of a loop, without a block of its own, is
one that control may go around: it is followed up to the end of that branch only.
-/

namespace ActorScript

open Lowering

variable {t : Target} {target finish : Nat} {jumps : LoopJumps} {u : Unit} {span : Span}
  {s : Stmt} {x? : Option (Lowering Place)}

/-- A variable and its register: its declaration starts at one position of the code, the register
is bound at another, and is released at a third. -/
structure Binding where
  id : LocalId
  register? : Option Register
  start : Nat
  bound : Nat
  release : Nat
  deriving DecidableEq, Repr

/-! ## Bindings of statements -/

def Lowering.after {α : Type} (t : Target) (x : Lowering α) (d : Draft) : Draft :=
  ((x.run t).run d).2

theorem Yields.after_eq {α : Type} {x : Lowering α} {d d' : Draft} {a : α} (h : Yields t x d a d') :
    after t x d = d' :=
  congrArg Prod.snd h.run

def Draft.home? (d : Draft) (id : LocalId) : Option Register :=
  d.homes[id]?.join.bind fun place => place.bank?.map fun bank => (bank, place.number)

def Draft.intoLoop (d : Draft) : Draft :=
  { d with loops := {} :: d.loops }

mutual

/-- Nothing but declarations, made once or again and again. -/
def Stmt.isDeclaration : Stmt → Bool
  | .declare _ _ _ _ _ => true
  | .sequence _ body => areDeclarations body
  | .doWhile _ body _ => body.isDeclaration
  | _ => false

def areDeclarations : List Stmt → Bool
  | [] => true
  | s :: rest => s.isDeclaration && areDeclarations rest

end

mutual

/-- Variables that a statement declares whichever way it goes, in a scope that ends at
`release`. -/
def Stmt.declared (t : Target) (release : Nat) : Stmt → Draft → List Binding
  | .declare span name type value (some id), d =>
      let d' := after t (Stmt.declare span name type value (some id)).lower d
      [⟨id, d'.home? id, d.code.length, d'.code.length, release⟩]
  | .sequence _ body, d => declaredIn t release body d
  | .doWhile _ body _, d =>
      if body.isDeclaration then body.declared t release d.intoLoop else []
  | _, _ => []

def declaredIn (t : Target) (release : Nat) : List Stmt → Draft → List Binding
  | [], _ => []
  | s :: rest, d => s.declared t release d ++ declaredIn t release rest (after t s.lower d)

end

/-- Variables that a statement declares, as far as the statement goes. -/
def Stmt.own (t : Target) (s : Stmt) (d : Draft) : List Binding :=
  s.declared t (after t s.lower d).code.length d

mutual

/-- Bindings of the variables in the blocks of a statement, in its branches and in the bodies of
its loops. -/
def Stmt.bindings (t : Target) : Stmt → Draft → List Binding
  | .block _ body _, d =>
      declaredIn t (after t (lowerBody body) d).code.length body d ++ bindingsIn t body d
  | .sequence _ body, d => bindingsIn t body d
  | .branch _ cond none whenFalse, d =>
      bindingsOf t whenFalse (after t (branchTest cond.lower 0) d)
  | .branch _ cond (some whenTrue) whenFalse, d =>
      let d₁ := after t (branchTest cond.lower 1) d
      (whenTrue.own t d₁ ++ whenTrue.bindings t d₁) ++
        bindingsOf t whenFalse (after t (do
          let skip ← branchTest cond.lower 1
          whenTrue.lower
          let _ ← Assembly.jumpForward
          Assembly.patch skip) d)
  | .whileLoop _ cond body, d =>
      let d₁ := (after t ((if cond.isConstant then none else some cond.lower).mapM
        fun cond => loopTest cond 0) d).intoLoop
      body.own t d₁ ++ body.bindings t d₁
  | .doWhile _ body _, d => body.own t d.intoLoop ++ body.bindings t d.intoLoop
  | .forLoop _ _ cond step body, d =>
      let d₁ := after t ((lowerOption cond).mapM fun cond => loopTest cond 0) d
      (body.own t d₁.intoLoop ++ body.bindings t d₁.intoLoop) ++
        bindingsOf t step (after t (loopBody body.lower) d₁)
  | _, _ => []

def bindingsIn (t : Target) : List Stmt → Draft → List Binding
  | [], _ => []
  | s :: rest, d => s.bindings t d ++ bindingsIn t rest (after t s.lower d)

def bindingsOf (t : Target) : Option Stmt → Draft → List Binding
  | none, _ => []
  | some s, d => s.own t d ++ s.bindings t d

end

def Stmt.scope (t : Target) (s : Stmt) (d : Draft) : List Binding :=
  s.own t d ++ s.bindings t d

/-! ## Guarded registers -/

namespace Binding

/-- Not in the code of the declaration. -/
def Away (b : Binding) (k : Nat) : Prop :=
  k < b.start ∨ b.bound ≤ k

/-- Control comes to where the register is bound only through the declaration, and not through
that without writing the register. -/
structure Guarded (b : Binding) (r : Register) (code : List Instr) : Prop where
  declared : b.start < b.bound
  bound : b.bound ≤ b.release
  released : b.release ≤ code.length
  entered : ∀ p q, Leads code p q → b.start < q → q < b.release → b.start ≤ p ∧ p < b.release
  filled : ∀ q, Dry code r b.start q → b.start ≤ q ∧ q < b.bound

namespace Guarded

variable {b : Binding} {r : Register} {code code' : List Instr}

/-- More code behind closed code, from which control does not come to where the register is
bound. -/
theorem later (h : b.Guarded r code) (hc : Closed code) (hcode : code <+: code')
    (hnew : ∀ p q, code.length ≤ p → Leads code' p q → q ≤ b.start ∨ b.release ≤ q) :
    b.Guarded r code' := by
  obtain ⟨rest, rfl⟩ := hcode
  have hold {p q : Nat} (hp : p < code.length) (hl : Leads (code ++ rest) p q) : Leads code p q := by
    have hl' : Leads ([] ++ code ++ rest) p q := by simpa using hl
    simpa using (hc.leads hl' (Nat.zero_le p) (by simpa using hp)).2
  exact { h with
    released := h.released.trans (by simp)
    entered := fun p q hl hlow hhigh => by
      by_cases hp : p < code.length
      · exact h.entered p q (hold hp hl) hlow hhigh
      · have := hnew p q (by omega) hl
        omega
    filled := fun q hdry => by
      apply h.filled q
      induction hdry with
      | start => exact .start
      | step _ hwrites hl ih =>
        have hlt := (h.filled _ ih).2
        have := h.bound
        have := h.released
        refine ih.step (fun i hi => hwrites i ?_) (hold (by omega) hl)
        exact getElem?_of_extends (List.prefix_append _ _) hi }

variable {d d' : Draft} {clashes : Bool}

theorem grow (h : b.Guarded r d.code) (hc : Closed d.code) (hg : Grows d clashes d') :
    b.Guarded r d'.code := by
  apply h.later hc hg.code
  intro p q hp hl
  have hlt := hl.lt
  have hl' : Leads (d.code ++ d.since d' ++ []) p q := by
    rwa [List.append_nil, ← Draft.code_eq_since hg.code]
  rw [Draft.code_eq_since hg.code, List.length_append] at hlt
  have hland := (hg.closed.leads hl' hp hlt).1
  have := h.released
  omega

theorem jumpTo (h : b.Guarded r d.code) (hc : Closed d.code) (htarget : target ≤ b.start) :
    b.Guarded r (d.push (.asbx .jmp (.imm 0) (Assembly.jumpOffset d.code.length target))).code := by
  apply h.later hc (by simp)
  intro p q hp hl
  have hlt := hl.lt
  rw [Draft.code_push, List.length_append, List.length_singleton] at hlt
  obtain rfl : p = d.code.length := by omega
  have hat : (d.push (.asbx .jmp (.imm 0) (Assembly.jumpOffset d.code.length target))).code[d.code.length]? =
      some (.asbx .jmp (.imm 0) (Assembly.jumpOffset d.code.length target)) := by simp
  have hq := hl.of_jump hat
  unfold Assembly.jumpOffset at hq
  omega

/-- A jump from outside the declaration that does not lead to where the register is bound. -/
theorem retarget (h : b.Guarded r d.code) {k n : Nat} (hj : d.JumpAt k) (hk : b.Away k)
    (hn : n ≤ b.start ∨ b.release ≤ n) : b.Guarded r (d.retarget k n).code := by
  obtain ⟨offset, hj⟩ := hj
  have hn' : ((k : Int) + 1 + Assembly.jumpOffset k n) = n := by
    unfold Assembly.jumpOffset
    omega
  rw [Draft.code_retarget]
  exact { h with
    released := by simpa using h.released
    entered := fun p q hl hlow hhigh => by
      rcases hl.of_withOffset hj with ⟨-, hq⟩ | hl
      · omega
      · exact h.entered p q hl hlow hhigh
    filled := fun q hdry => by
      apply h.filled q
      induction hdry with
      | start => exact .start
      | @step p q _ hwrites hl ih =>
        have hp := h.filled _ ih
        have hne : p ≠ k := by
          rintro rfl
          rcases hk with hk | hk <;> omega
        refine ih.step (fun i hi => hwrites i ?_) ?_
        · rw [getElem?_withOffset hj, if_neg hne, hi]
        · rcases hl.of_withOffset hj with ⟨rfl, -⟩ | hl
          · exact absurd rfl hne
          · exact hl }

end Guarded

end Binding

/-! ## Guards -/

def Draft.innermost (d : Draft) : List Nat :=
  (d.loops.headD {}).breaks ++ (d.loops.headD {}).continues

theorem Draft.Records.innermost {d d' : Draft} (h : d.Records d') {k : Nat}
    (hk : k ∈ d'.innermost) : k ∈ d.innermost ∨ d.code.length ≤ k ∧ k < d'.code.length := by
  obtain ⟨breaks, continues, hloops, hwait⟩ := h
  have hnew := fun hk => And.imp_right JumpAt.lt (hwait k hk)
  unfold Draft.innermost at hk ⊢
  rw [hloops] at hk
  cases hold : d.loops with
  | nil =>
    rw [hold] at hk
    simp at hk
  | cons jumps outer =>
    rw [hold] at hk
    simp only [List.modifyHead_cons, List.headD_cons, LoopJumps.record, List.mem_append] at hk hnew ⊢
    tauto

/-- Registers that were bound since are guarded, and no jump that waits is in a declaration. -/
structure Draft.Guards (d : Draft) (bs : List Binding) (d' : Draft) : Prop where
  guarded : ∀ b ∈ bs, ∃ r, b.register? = some r ∧ r.2 < 256 ∧ b.Guarded r d'.code
  since : ∀ b ∈ bs, d.code.length ≤ b.start
  away : ∀ b ∈ bs, ∀ k ∈ d'.innermost, k ∈ d.innermost ∨ b.Away k

namespace Draft.Guards

variable {c : Context} {d d1 d2 : Draft} {bs bs' : List Binding} {clashes : Bool}

theorem nil : d.Guards [] d1 := by
  constructor <;> simp

theorem append (h : d.Guards bs d1) (h' : d.Guards bs' d1) : d.Guards (bs ++ bs') d1 where
  guarded b hb := (List.mem_append.1 hb).elim (h.guarded b) (h'.guarded b)
  since b hb := (List.mem_append.1 hb).elim (h.since b) (h'.since b)
  away b hb := (List.mem_append.1 hb).elim (h.away b) (h'.away b)

theorem bound_le (h : d.Guards bs d1) {b : Binding} (hb : b ∈ bs) :
    b.bound ≤ b.release ∧ b.release ≤ d1.code.length := by
  obtain ⟨r, -, -, hg⟩ := h.guarded b hb
  exact ⟨hg.bound, hg.released⟩

theorem later (h : d.Guards bs d1) (hc : Closed d1.code) (hp : Passes c d1 clashes d2) :
    d.Guards bs d2 where
  guarded b hb := by
    obtain ⟨r, hr, hlt, hg⟩ := h.guarded b hb
    exact ⟨r, hr, hlt, hg.grow hc hp.toGrows⟩
  since := h.since
  away b hb k hk := by
    have := h.bound_le hb
    rcases hp.records.innermost hk with hk | ⟨hle, -⟩
    · exact h.away b hb k hk
    · exact .inr (.inr (by omega))

theorem earlier (hp : Passes c d clashes d1) (h : d1.Guards bs d2) : d.Guards bs d2 where
  guarded := h.guarded
  since b hb := hp.code.length_le.trans (h.since b hb)
  away b hb k hk := by
    have := h.since b hb
    rcases h.away b hb k hk with hk | hk
    · exact (hp.records.innermost hk).imp_right fun hk => .inl (by omega)
    · exact .inr hk

theorem patch (h : d.Guards bs d1) {k n : Nat} (hj : d1.JumpAt k) (hk : ∀ b ∈ bs, b.Away k)
    (hn : ∀ b ∈ bs, n ≤ b.start ∨ b.release ≤ n) : d.Guards bs (d1.retarget k n) where
  __ := h
  guarded b hb := by
    obtain ⟨r, hr, hlt, hg⟩ := h.guarded b hb
    exact ⟨r, hr, hlt, hg.retarget hj (hk b hb) (hn b hb)⟩

theorem jumpTo (h : d.Guards bs d1) (hc : Closed d1.code) (htarget : target ≤ d.code.length) :
    d.Guards bs (d1.push (.asbx .jmp (.imm 0) (Assembly.jumpOffset d1.code.length target))) where
  __ := h
  guarded b hb := by
    obtain ⟨r, hr, hlt, hg⟩ := h.guarded b hb
    exact ⟨r, hr, hlt, hg.jumpTo hc (htarget.trans (h.since b hb))⟩

/-- Jumps that are outside of all declarations get a target before or behind them. -/
theorem closeLoop {exit : Option Nat} {next : Nat} (h : d.Guards bs d1)
    (hexit : ∀ k ∈ exit, d1.JumpAt k ∧ ∀ b ∈ bs, b.Away k)
    (hj : ∀ k ∈ jumps.breaks ++ jumps.continues, d1.JumpAt k)
    (hk : ∀ b ∈ bs, ∀ k ∈ jumps.breaks ++ jumps.continues, b.Away k)
    (hnext : ∀ b ∈ bs, next ≤ b.start ∨ b.release ≤ next)
    (hfinish : ∀ b ∈ bs, finish ≤ b.start ∨ b.release ≤ finish)
    (hy : Yields t (do
      exit.forM fun k => liftM (Assembly.patchTo k finish)
      Lowering.patchLoop jumps next finish) d1 u d2) : d.Guards bs d2 := by
  have hall : ∀ k ∈ exit.toList ++ (jumps.breaks ++ jumps.continues),
      d1.JumpAt k ∧ ∀ b ∈ bs, b.Away k := fun k hk' => (List.mem_append.1 hk').elim
    (fun hk' => hexit k (Option.mem_toList.1 hk')) fun hk' => ⟨hj k hk', fun b hb => hk b hb k hk'⟩
  suffices hend : d.Guards bs d2 ∧ ∀ k, d1.JumpAt k → d2.JumpAt k from hend.1
  apply hy.closeLoop ⟨h, fun _ => id⟩
  rintro d3 k hk' n hn - ⟨hg, hkept⟩
  refine ⟨hg.patch (hkept k (hall k hk').1) (hall k hk').2 ?_, fun k hk =>
    Draft.jumpAt_retarget (hkept k hk)⟩
  rcases hn with rfl | rfl <;> assumption

end Draft.Guards

/-! ## Declarations -/

theorem Draft.home?_withHomes {d : Draft} {id : LocalId} {r : Register} (h : id < d.homes.size) :
    (d.withHomes (d.homes.setIfInBounds id (some (.fixed (some r.1) r.2)))).home? id = some r := by
  simp [Draft.home?, Draft.withHomes, Place.fixed, h]

/-- The code of a declaration goes from one draft to another. -/
structure Draft.Declaration (first : Draft) (b : Binding) (r : Register) (clashes : Bool)
    (last : Draft) : Prop extends Grows first clashes last where
  register : b.register? = some r
  small : r.2 < 256
  start : b.start = first.code.length
  bound : b.bound = last.code.length
  closes : Closed first.code
  fills : first.Fills last r

/-- The code of a declaration was added since, and no jump that waits is in it. -/
def Draft.Declares (d : Draft) (b : Binding) (d' : Draft) : Prop :=
  ∃ (first last : Draft) (r : Register) (clashes : Bool), first.Declaration b r clashes last ∧
    d.code.length ≤ first.code.length ∧ last.code <+: d'.code ∧ ∀ k ∈ d'.innermost, k ∈ d.innermost ∨ b.Away k

namespace Draft.Declares

variable {c : Context} {d d1 d2 : Draft} {b : Binding} {clashes : Bool}

/-- A declaration in the body of a loop from which no jump leaves. -/
theorem ofLoop (h : d.intoLoop.Declares b d1) (hcode : d1.code <+: d2.code)
    (hloops : d2.loops = d.loops) : d.Declares b d2 := by
  obtain ⟨first, last, r, clashes', hdecl, hsince, hcode', -⟩ := h
  refine ⟨first, last, r, clashes', hdecl, hsince, hcode'.trans hcode, fun k hk => .inl ?_⟩
  rwa [Draft.innermost, hloops] at hk

theorem later (h : d.Declares b d1) (hp : Passes c d1 clashes d2) : d.Declares b d2 := by
  obtain ⟨first, last, r, clashes', hdecl, hsince, hcode, haway⟩ := h
  refine ⟨first, last, r, clashes', hdecl, hsince, hcode.trans hp.code, fun k hk => ?_⟩
  have hlen := hcode.length_le
  have hbound := hdecl.bound
  rcases hp.records.innermost hk with hk | ⟨hle, -⟩
  · exact haway k hk
  · exact .inr (.inr (by omega))

theorem earlier (hp : Passes c d clashes d1) (h : d1.Declares b d2) : d.Declares b d2 := by
  obtain ⟨first, last, r, clashes', hdecl, hsince, hcode, haway⟩ := h
  refine ⟨first, last, r, clashes', hdecl, hp.code.length_le.trans hsince, hcode, fun k hk => ?_⟩
  have hstart := hdecl.start
  rcases haway k hk with hk | hk
  · exact (hp.records.innermost hk).imp_right fun hk => .inl (by omega)
  · exact .inr hk

/-- At the end of its block a variable is guarded: what is before the declaration is closed, and
so there is no way from there to beyond its start. -/
theorem guards (h : d.Declares b d1) (hrelease : b.release = d1.code.length) :
    (∃ r, b.register? = some r ∧ r.2 < 256 ∧ b.Guarded r d1.code) ∧ d.code.length ≤ b.start ∧
      ∀ k ∈ d1.innermost, k ∈ d.innermost ∨ b.Away k := by
  obtain ⟨first, last, r, clashes', hdecl, hsince, hcode, haway⟩ := h
  have hlen := hcode.length_le
  refine ⟨⟨r, hdecl.register, hdecl.small, ?_⟩, hdecl.start ▸ hsince, haway⟩
  exact {
    declared := by
      rw [hdecl.start, hdecl.bound]
      exact hdecl.fills.lt hdecl.code
    bound := by rw [hdecl.bound, hrelease]; exact hlen
    released := hrelease.le
    entered := fun p q hl hlow hhigh => by
      refine ⟨?_, hrelease ▸ hl.lt⟩
      by_contra hp
      obtain ⟨rest, hrest⟩ := hdecl.code.trans hcode
      rw [hdecl.start] at hp hlow
      have hl' : Leads ([] ++ first.code ++ rest) p q := by simpa [hrest] using hl
      have := (hdecl.closes.leads hl' (Nat.zero_le p) (by simpa using hp)).1
      simp only [List.length_nil] at this
      omega
    filled := fun q hdry => by
      rw [hdecl.start] at hdry ⊢
      rw [hdecl.bound]
      exact hdecl.fills.dry_lt hdecl.toGrows hcode hdry }

end Draft.Declares

/-! ## Statements -/

/-- Lowering a statement guards the registers of its bindings, whenever it goes well. -/
def Stmt.Binds (t : Target) (c : Context) (n : Nat) (x : Lowering Unit)
    (bs : Draft → List Binding) : Prop :=
  ∀ d u d', Sound c d → Closed d.code → n ≤ d.homes.size → Yields t x d u d' → d.Guards (bs d) d'

/-- Lowering a statement makes the declarations of the block around it, whenever it goes well. -/
def Stmt.Declares (t : Target) (c : Context) (n release : Nat) (x : Lowering Unit)
    (bs : Draft → List Binding) : Prop :=
  ∀ d u d', Sound c d → Closed d.code → n ≤ d.homes.size → Yields t x d u d' →
    ∀ b ∈ bs d, b.release = release ∧ d.Declares b d'

section Statements

variable {t : Target} {c : Context} {x : Lowering Place} {y z : Lowering Unit}
  {f : Footprint} {d d' : Draft} {p q : Bool} {n lo release : Nat} {bs bs' : Draft → List Binding}

theorem Stmt.Binds.none : Stmt.Binds t c n y fun _ => [] :=
  fun _ _ _ _ _ _ _ => .nil

theorem declare_declares {name type : String} {value : Expr} {id : LocalId} {bank : Bank}
    (hvalue : Settled c false value) (hb : value.ty.bank? = some bank) (hk : t.kind = c.kind)
    (hid : id < n) :
    Stmt.Declares t c n release (Stmt.declare span name type (some value) (some id)).lower
      ((Stmt.declare span name type (some value) (some id)).declared t release) := by
  intro d u d' hd hc hn hy b hmem
  obtain ⟨r, e, -, d1, hw, hfills, rfl⟩ := hvalue.introduces hk hb hd hy
  have hid : id < d1.homes.size := by
    rw [Draft.homes_eq hw.surroundings]
    exact hid.trans_le hn
  rw [Stmt.declared, hy.after_eq, List.mem_singleton] at hmem
  subst hmem
  refine ⟨rfl, d, d1, (bank, r), e.clashes, ?_, Nat.le_refl _, List.prefix_rfl, fun k hk => ?_⟩
  · exact {
      hw.toGrows with
      register := Draft.home?_withHomes hid
      small := Draft.live_lt ((hw.live _).2 (.inr rfl))
      start := rfl
      bound := rfl
      closes := hc
      fills := hfills }
  · have hloops : d1.loops = d.loops := Draft.loops_eq hw.surroundings
    exact .inl (by simpa [Draft.innermost, Draft.withHomes, hloops] using hk)

theorem lowerBody_declares {body : List Stmt}
    (hp : ∀ s ∈ body, Stmt.Performs t c s.lower s.clashes)
    (h : ∀ s ∈ body, Stmt.Declares t c n release s.lower (s.declared t release)) :
    Stmt.Declares t c n release (lowerBody body) (declaredIn t release body) := by
  induction body with
  | nil => simp [Stmt.Declares, declaredIn]
  | cons s rest ih =>
    have hrest (s' : Stmt) (hs : s' ∈ rest) : s' ∈ s :: rest := List.mem_cons_of_mem _ hs
    intro d u d' hd hc hn hy b hb
    rw [lowerBody] at hy
    obtain ⟨_, d1, hs, hy'⟩ := yields_bind.1 hy
    have hp1 := hp s (by simp) d _ d1 hd hs
    have hp2 := lowerBody_performs (fun s hs => hp s (hrest s hs)) d1 _ d' hp1.sound hy'
    rw [declaredIn, hs.after_eq] at hb
    rcases List.mem_append.1 hb with hb | hb
    · obtain ⟨hrelease, hdecl⟩ := h s (by simp) d _ d1 hd hc hn hs b hb
      exact ⟨hrelease, hdecl.later hp2⟩
    · obtain ⟨hrelease, hdecl⟩ := ih (fun s hs => hp s (hrest s hs)) (fun s hs => h s (hrest s hs))
        d1 _ d' hp1.sound (hp1.closes hc) (hp1.size ▸ hn) hy' b hb
      exact ⟨hrelease, hdecl.earlier hp1⟩

/-- Code from which no jump leaves the loop around it. -/
def Stmt.Quiet (t : Target) (c : Context) (x : Lowering Unit) : Prop :=
  ∀ d u d', Sound c d → Yields t x d u d' → d'.loops = d.loops

theorem patchLoop_nothing {next : Nat} (h : Yields t (Lowering.patchLoop {} next finish) d u d') :
    d' = d := by
  unfold Lowering.patchLoop at h
  obtain ⟨_, d1, hbreaks, hcontinues⟩ := yields_bind.1 h
  exact (yields_pure.1 hcontinues).2.trans (yields_pure.1 hbreaks).2

theorem loopBody_quiet [Safe y] (hy : Stmt.Quiet t c y) (hd : Sound c d)
    (h : Yields t (loopBody y) d jumps d') :
    jumps = {} ∧ d'.loops = d.loops ∧ ∃ u d1, Yields t y d.intoLoop u d1 ∧ d1.code = d'.code := by
  simp only [loopBody, yields_bind, yields_modifyLoops, yields_getDraft, yields_pure] at h
  obtain ⟨_, _, rfl, u, _, hbody, _, d1, ⟨rfl, rfl⟩, _, _, rfl, rfl, rfl⟩ := h
  have hloops := hy d.intoLoop u d1 (hd.withLoops _) hbody
  simp only [Draft.intoLoop] at hloops
  exact ⟨by simp [hloops], by simp [hloops], u, d1, hbody, rfl⟩

/-- The code of a quiet body stays as it is when the loop is closed. -/
theorem doWhile_quiet [Safe x] [Safe y] (hx : Lowers t c x f) (hf : f.bank? = some .int)
    (hy : Stmt.Quiet t c y) (hp : Stmt.Performs t c y p) {known : Option Constant} (hd : Sound c d)
    (h : Yields t (Lowering.doWhile y known x) d u d') :
    d'.loops = d.loops ∧ ∃ u' d1, Yields t y d.intoLoop u' d1 ∧ d1.code <+: d'.code := by
  cases known with
  | none =>
    simp only [Lowering.doWhile, yields_steps] at h
    obtain ⟨jumps, d1, hbody, k, d2, htest, -, hclose⟩ := h
    obtain ⟨rfl, hloops, u', d3, hbody', hcode⟩ := loopBody_quiet hy hd hbody
    obtain ⟨hw, hwait⟩ := loopTest_spec hx hf (loopBody_spec hp hd hbody).1.sound htest
    rw [patchLoop_nothing hclose]
    exact ⟨(Draft.loops_eq hw.surroundings).trans hloops, u', d3, hbody', hcode ▸
      (Draft.since_retarget hw.code (hwait k (by simp)).1).1⟩
  | some v =>
    simp only [Lowering.doWhile, yields_steps] at h
    obtain ⟨jumps, d1, hbody, h⟩ := h
    obtain ⟨rfl, hloops, u', d2, hbody', hcode⟩ := loopBody_quiet hy hd hbody
    split at h
    next =>
      simp only [yields_steps] at h
      rw [patchLoop_nothing h.2]
      exact ⟨hloops, u', d2, hbody', by simp [hcode]⟩
    next =>
      simp only [yields_steps] at h
      rw [patchLoop_nothing h]
      exact ⟨hloops, u', d2, hbody', by simp [hcode]⟩

theorem lowerBody_quiet {body : List Stmt} (hp : ∀ s ∈ body, Stmt.Performs t c s.lower s.clashes)
    (h : ∀ s ∈ body, Stmt.Quiet t c s.lower) : Stmt.Quiet t c (lowerBody body) := by
  induction body with
  | nil =>
    intro d u d' _ hy
    rw [(yields_pure.1 hy).2]
  | cons s rest ih =>
    intro d u d' hd hy
    rw [lowerBody] at hy
    obtain ⟨_, d1, hs, hrest⟩ := yields_bind.1 hy
    have hd1 := (hp s (by simp) d _ d1 hd hs).sound
    rw [ih (fun s hs => hp s (by simp [hs])) (fun s hs => h s (by simp [hs])) d1 u d' hd1 hrest,
      h s (by simp) d _ d1 hd hs]

theorem isDeclaration_of_mem {body : List Stmt} (h : areDeclarations body = true)
    (hs : s ∈ body) : s.isDeclaration = true := by
  induction body with
  | nil => cases hs
  | cons s' rest ih =>
    simp only [areDeclarations, Bool.and_eq_true] at h
    rcases List.mem_cons.1 hs with rfl | hs
    · exact h.1
    · exact ih h.2 hs

theorem SettledStmt.quiet (h : SettledStmt c s) (hk : t.kind = c.kind) (hc : c.target = none)
    (hs : s.isDeclaration = true) : Stmt.Quiet t c s.lower := by
  induction h with
  | @sequence span body hbody ih =>
    rw [Stmt.lower]
    exact lowerBody_quiet (fun s hmem => (hbody s hmem).performs hk hc)
      fun s hmem => ih s hmem (isDeclaration_of_mem hs hmem)
  | @doWhile span body cond hbody hcond ih =>
    intro d u d' hd hy
    exact (doWhile_quiet (hcond.1.performs hk) hcond.2 (ih hs) (hbody.performs hk hc) hd hy).1
  | declare hvalue hb hid =>
    intro d u d' hd hy
    obtain ⟨r, e, -, d1, hw, -, rfl⟩ := hvalue.introduces hk hb hd hy
    have hloops : d1.loops = d.loops := Draft.loops_eq hw.surroundings
    exact hloops
  | nop | expr | block | branch | whileLoop | forLoop | jump | ret => simp [Stmt.isDeclaration] at hs

theorem SettledStmt.declares (h : SettledStmt c s) (hk : t.kind = c.kind) (hc : c.target = none)
    (hs : s.Allots lo n) : Stmt.Declares t c n release s.lower (s.declared t release) := by
  induction h with
  | @sequence span body hbody ih =>
    rw [Stmt.lower]
    simp only [Stmt.declared]
    exact lowerBody_declares (fun s hmem => (hbody s hmem).performs hk hc)
      fun s hmem => ih s hmem (hs.child hmem)
  | declare hvalue hb hid => exact declare_declares hvalue hb hk (hs.2 _ rfl).2
  | @doWhile span body cond hbody hcond ih =>
    intro d u d' hd hclosed hn hy b hb
    rw [Stmt.declared] at hb
    split at hb
    next hbodies =>
      obtain ⟨hloops, _, d1, hbody', hcode⟩ := doWhile_quiet (hcond.1.performs hk) hcond.2
        (hbody.quiet hk hc hbodies) (hbody.performs hk hc) hd hy
      obtain ⟨hrelease, hdecl⟩ := ih (hs.child (by simp [Stmt.children])) d.intoLoop _ d1
        (hd.withLoops _) hclosed hn hbody' b hb
      exact ⟨hrelease, hdecl.ofLoop hcode hloops⟩
    next => cases hb
  | nop | expr | block | branch | whileLoop | forLoop | jump | ret =>
    intro d u d' _ _ _ _ b hb
    simp [Stmt.declared] at hb

/-- Declarations are guarded up to the end of the code. -/
theorem Draft.guards_of_declares {bs : List Binding}
    (h : ∀ b ∈ bs, b.release = d'.code.length ∧ d.Declares b d') : d.Guards bs d' where
  guarded b hb := ((h b hb).2.guards (h b hb).1).1
  since b hb := ((h b hb).2.guards (h b hb).1).2.1
  away b hb := ((h b hb).2.guards (h b hb).1).2.2

theorem Stmt.Binds.withOwn (h : Stmt.Binds t c n s.lower (s.bindings t))
    (hdecl : ∀ release, Stmt.Declares t c n release s.lower (s.declared t release)) :
    Stmt.Binds t c n s.lower (s.scope t) := by
  intro d u d' hd hc hn hy
  rw [Stmt.scope, Stmt.own, hy.after_eq]
  exact (Draft.guards_of_declares (hdecl d'.code.length d u d' hd hc hn hy)).append
    (h d u d' hd hc hn hy)

theorem lowerBody_binds {body : List Stmt}
    (hp : ∀ s ∈ body, Stmt.Performs t c s.lower s.clashes)
    (h : ∀ s ∈ body, Stmt.Binds t c n s.lower (s.bindings t)) :
    Stmt.Binds t c n (lowerBody body) (bindingsIn t body) := by
  induction body with
  | nil => exact Stmt.Binds.none
  | cons s rest ih =>
    have hrest (s' : Stmt) (hs : s' ∈ rest) : s' ∈ s :: rest := List.mem_cons_of_mem _ hs
    intro d u d' hd hc hn hy
    rw [lowerBody] at hy
    obtain ⟨_, d1, hs, hy'⟩ := yields_bind.1 hy
    have hp1 := hp s (by simp) d _ d1 hd hs
    have hc1 := hp1.closes hc
    have hp2 := lowerBody_performs (fun s hs => hp s (hrest s hs)) d1 _ d' hp1.sound hy'
    rw [bindingsIn, hs.after_eq]
    apply Draft.Guards.append
    · exact (h s (by simp) d _ d1 hd hc hn hs).later hc1 hp2
    · exact (ih (fun s hs => hp s (hrest s hs)) (fun s hs => h s (hrest s hs)) d1 _ d' hp1.sound hc1
        (hp1.size ▸ hn) hy').earlier hp1

/-- The variables of a block are guarded up to its end. -/
theorem block_binds {body : List Stmt} {locals : List LocalId} (ht : c.target = none)
    (hp : ∀ s ∈ body, Stmt.Performs t c s.lower s.clashes)
    (hdecl : ∀ s ∈ body, ∀ release, Stmt.Declares t c n release s.lower (s.declared t release))
    (h : ∀ s ∈ body, Stmt.Binds t c n s.lower (s.bindings t)) :
    Stmt.Binds t c n (Stmt.block span body locals).lower ((Stmt.block span body locals).bindings t) := by
  intro d u d' hd hc hn hy
  rw [Stmt.lower] at hy
  obtain ⟨_, d1, hbody, hfree⟩ := yields_bind.1 hy
  have hp1 := lowerBody_performs hp d _ d1 hd hbody
  have hp2 := releaseAll_performs ht locals d1 _ d' hp1.sound hfree
  rw [Stmt.bindings, hbody.after_eq]
  have hdeclares := lowerBody_declares hp (fun s hs => hdecl s hs d1.code.length) d _ d1 hd hc hn hbody
  exact ((Draft.guards_of_declares hdeclares).append (lowerBody_binds hp h d _ d1 hd hc hn hbody)).later (hp1.closes hc) hp2

theorem branch_binds [Safe x] [Safe y] (hx : Lowers t c x f) (hf : f.bank? = some .int)
    (check : Nat) (hy : Stmt.Performs t c y p) (h : Stmt.Binds t c n y bs) :
    Stmt.Binds t c n (branch x check y none) fun d => bs (after t (branchTest x check) d) := by
  intro d u d' hd hc hn hyields
  simp only [branch, yields_steps] at hyields
  obtain ⟨k, d1, htest, _, d2, hy', -, rfl⟩ := hyields
  obtain ⟨hw, hwait⟩ := branchTest_spec hx hf hd htest
  have hp1 := Passes.ofWork hd hw
  have hp2 := hy d1 _ d2 hp1.sound hy'
  obtain ⟨-, hjump⟩ := hwait k (by simp)
  have hg := h d1 _ d2 hp1.sound (hp1.closes hc) (hp1.size ▸ hn) hy'
  simp only [htest.after_eq]
  refine (hg.earlier hp1).patch (hjump.later hp2.code) (fun b hb => ?_) fun b hb => ?_
  · exact .inl (hjump.lt.trans_le (hg.since b hb))
  · exact .inr (hg.bound_le hb).2

theorem branchElse_binds [Safe x] [Safe y] [Safe z] (hx : Lowers t c x f) (hf : f.bank? = some .int)
    (check : Nat) (hy : Stmt.Performs t c y p) (hz : Stmt.Performs t c z q)
    (h : Stmt.Binds t c n y bs) (h' : Stmt.Binds t c n z bs') :
    Stmt.Binds t c n (branch x check y (some z)) fun d =>
      bs (after t (branchTest x check) d) ++ bs' (after t (do
        let skip ← branchTest x check
        y
        let _ ← Assembly.jumpForward
        Assembly.patch skip) d) := by
  intro d u d' hd hc hn hyields
  simp only [branch, yields_steps] at hyields
  obtain ⟨k, d1, htest, _, d2, hy', hfits, _, d3, hz', -, rfl⟩ := hyields
  obtain ⟨hw, hwait⟩ := branchTest_spec hx hf hd htest
  have hp1 := Passes.ofWork hd hw
  have hp2 := hy d1 _ d2 hp1.sound hy'
  obtain ⟨hle, hjump⟩ := hwait k (by simp)
  have hfirst := (hp1.trans hp2).jump
  have hskip := hfirst.patch (k := k) (n := (d2.push (.asbx .jmp (.imm 0) 0)).code.length)
    (by simp [hjump.later hp2.code]) hle hfirst.code.length_le le_rfl hfits
  have hp3 := hz _ _ d3 hskip.sound hz'
  have hafter : after t (do
      let skip ← branchTest x check
      y
      let _ ← Assembly.jumpForward
      Assembly.patch skip) d = (d2.push (.asbx .jmp (.imm 0) 0)).retarget k
        (d2.push (.asbx .jmp (.imm 0) 0)).code.length := by
    apply Yields.after_eq (a := ())
    simp only [yields_steps]
    exact ⟨k, d1, htest, _, d2, hy', hfits, rfl⟩
  simp only [htest.after_eq, hafter]
  have hc2 := (hp1.trans hp2).closes hc
  have hg := h d1 _ d2 hp1.sound (hp1.closes hc) (hp1.size ▸ hn) hy'
  have hg' := h' _ _ d3 hskip.sound (hskip.closes hc) (hskip.size ▸ hn) hz'
  have hpush := (Passes.ofWork hp2.sound (Work.refl d2)).jump
  have hyes := ((hg.earlier hp1).later hc2 hpush).patch (k := k)
    (n := (d2.push (.asbx .jmp (.imm 0) 0)).code.length) (by simp [hjump.later hp2.code])
    (fun b hb => .inl (hjump.lt.trans_le (hg.since b hb)))
    (fun b hb => .inr ((hg.bound_le hb).2.trans (by simp)))
  have hboth := (hyes.later (hskip.closes hc) hp3).append (hg'.earlier hskip)
  refine hboth.patch (Draft.JumpAt.later ?_ hp3.code) (fun b hb => ?_) fun b hb => ?_
  · exact Draft.jumpAt_retarget (by simp)
  · rcases List.mem_append.1 hb with hb | hb
    · have := hg.bound_le hb
      exact .inr (by omega)
    · have := hg'.since b hb
      exact .inl (by simp at this; omega)
  · exact .inr (hboth.bound_le hb).2

/-! ## Loops -/

theorem loopBody_guards [Safe y] (hy : Stmt.Performs t c y p) (h : Stmt.Binds t c n y bs)
    (hd : Sound c d) (hc : Closed d.code) (hn : n ≤ d.homes.size)
    (hyields : Yields t (loopBody y) d jumps d') :
    d.Guards (bs d.intoLoop) d' ∧
      ∀ b ∈ bs d.intoLoop, ∀ k ∈ jumps.breaks ++ jumps.continues, b.Away k := by
  have hp := (loopBody_spec hy hd hyields).1
  simp only [loopBody, yields_bind, yields_modifyLoops, yields_getDraft, yields_pure] at hyields
  obtain ⟨_, _, rfl, _, _, hbody, _, d1, ⟨rfl, rfl⟩, _, _, rfl, rfl, rfl⟩ := hyields
  have hg := h d.intoLoop _ d1 (hd.withLoops _) hc hn hbody
  obtain ⟨breaks, continues, hloops, -⟩ := (hy d.intoLoop _ d1 (hd.withLoops _) hbody).records
  simp only [Draft.intoLoop, List.modifyHead_cons] at hloops
  refine ⟨⟨hg.guarded, hg.since, fun b hb k hk => .inl ?_⟩, fun b hb k hk => ?_⟩
  · simpa [Draft.innermost, hloops] using hk
  · have hnone : k ∉ d.intoLoop.innermost := by simp [Draft.innermost, Draft.intoLoop]
    exact (hg.away b hb k (by simpa [Draft.innermost, hloops] using hk)).resolve_left hnone

theorem rounds_binds [Safe y] (hx : Tested t c x? q) {step : Option (Lowering Unit)}
    (hsafe : ∀ z ∈ step, Safe z) {r : Bool} (hstep : Stmt.Performs t c (step.getD (pure ())) r)
    (hy : Stmt.Performs t c y p) (h : Stmt.Binds t c n y bs)
    (h' : Stmt.Binds t c n (step.getD (pure ())) bs') (toStep : Bool) :
    Stmt.Binds t c n (rounds toStep x? step y) fun d =>
      bs (after t (x?.mapM fun x => loopTest x 0) d).intoLoop ++
        bs' (after t (loopBody y) (after t (x?.mapM fun x => loopTest x 0) d)) := by
  intro d u d' hd hc hn hyields
  have hsafe := safe_getD hsafe
  have htests := safe_loopTests hx.safe 0
  simp only [rounds, yields_steps] at hyields
  obtain ⟨exit, d1, htest, jumps, d2, hbody, _, d3, hstep', -, hclose⟩ := hyields
  obtain ⟨hp1, hwait1⟩ := loopTests_spec hx hd htest
  obtain ⟨hp2, hwait2⟩ := loopBody_spec hy hp1.sound hbody
  have hp3 := hstep _ _ d3 hp2.sound hstep'
  have hp := hp1.trans hp2
  obtain ⟨hg, haway⟩ := loopBody_guards hy h hp1.sound (hp1.closes hc) (hp1.size ▸ hn) hbody
  have hg3 := h' d2 _ d3 hp.sound (hp.closes hc) (hp.size ▸ hn) hstep'
  have hboth := ((hg.earlier hp1).later (hp.closes hc) hp3).append (hg3.earlier hp)
  have hg' := hboth.jumpTo ((hp.trans hp3).closes hc) le_rfl
  have hlen := hp2.code.length_le
  simp only [htest.after_eq, hbody.after_eq]
  refine hg'.closeLoop (fun k hk => ?_) (fun k hk => ?_) (fun b hb k hk => ?_) (fun b hb => ?_)
    (fun b hb => ?_) (yields_bind.2 hclose)
  · have hjump := (hwait1 k (Option.mem_toList.2 hk)).2
    have hlt := hjump.lt
    refine ⟨((hjump.later hp2.code).later hp3.code).later (by simp), fun b hb => .inl ?_⟩
    rcases List.mem_append.1 hb with hb | hb
    · exact hlt.trans_le (hg.since b hb)
    · exact hlt.trans_le (hlen.trans (hg3.since b hb))
  · exact ((hwait2 k hk).2.later hp3.code).later (by simp)
  · rcases List.mem_append.1 hb with hb | hb
    · exact haway b hb k hk
    · exact .inl ((hwait2 k hk).2.lt.trans_le (hg3.since b hb))
  · cases toStep with
    | false => exact .inl (hg'.since b hb)
    | true =>
      rcases List.mem_append.1 hb with hb | hb
      · exact .inr (hg.bound_le hb).2
      · exact .inl (hg3.since b hb)
  · exact .inr (hg'.bound_le hb).2

theorem doWhile_binds [Safe x] [Safe y] (hx : Lowers t c x f) (hf : f.bank? = some .int)
    (hy : Stmt.Performs t c y p) (h : Stmt.Binds t c n y bs) :
    Stmt.Binds t c n (Lowering.doWhile y none x) fun d => bs d.intoLoop := by
  intro d u d' hd hc hn hyields
  simp only [Lowering.doWhile, yields_steps] at hyields
  obtain ⟨jumps, d1, hbody, k, d2, htest, hback, hclose⟩ := hyields
  obtain ⟨hp1, hwait1⟩ := loopBody_spec hy hd hbody
  obtain ⟨hw, hwait⟩ := loopTest_spec hx hf hp1.sound htest
  obtain ⟨hle, hjump⟩ := hwait k (by simp)
  obtain ⟨hg, haway⟩ := loopBody_guards hy h hd hc hn hbody
  have hg' := (hg.later (hp1.closes hc) (Passes.ofWork hp1.sound hw)).patch hjump (n := d.code.length)
    (fun b hb => .inr (by have := hg.bound_le hb; omega)) (fun b hb => .inl (hg.since b hb))
  refine hg'.closeLoop (by simp) (fun k hk => ?_) haway (fun b hb => ?_) (fun b hb => ?_)
    hclose.withoutExit
  · exact Draft.jumpAt_retarget ((hwait1 k hk).2.later hw.code)
  · exact .inr (hg.bound_le hb).2
  · exact .inr (hg'.bound_le hb).2

theorem doWhileKnown_binds [Safe y] (hy : Stmt.Performs t c y p) (h : Stmt.Binds t c n y bs)
    (v : Constant) : Stmt.Binds t c n (Lowering.doWhile y (some v) x) fun d => bs d.intoLoop := by
  intro d u d' hd hc hn hyields
  simp only [Lowering.doWhile, yields_steps] at hyields
  obtain ⟨jumps, d1, hbody, hrest⟩ := hyields
  obtain ⟨hp, hwait⟩ := loopBody_spec hy hd hbody
  obtain ⟨hg, haway⟩ := loopBody_guards hy h hd hc hn hbody
  have hend (b : Binding) (hb : b ∈ bs d.intoLoop) :
      d1.code.length ≤ b.start ∨ b.release ≤ d1.code.length :=
    .inr (hg.bound_le hb).2
  split at hrest
  next =>
    simp only [yields_steps] at hrest
    have hg' := hg.jumpTo (hp.closes hc) le_rfl
    exact hg'.closeLoop (by simp) (fun k hk => (hwait k hk).2.later (by simp)) haway hend
      (fun b hb => .inr (hg'.bound_le hb).2) hrest.2.withoutExit
  next =>
    simp only [yields_steps] at hrest
    exact hg.closeLoop (by simp) (fun k hk => (hwait k hk).2) haway hend hend hrest.withoutExit

theorem SettledStmt.binds (h : SettledStmt c s) (hk : t.kind = c.kind) (hc : c.target = none)
    (hs : s.Allots lo n) : Stmt.Binds t c n s.lower (s.bindings t) := by
  induction h with
  | nop | expr | jump | ret | declare => exact Stmt.Binds.none
  | @sequence span body hbody ih =>
    rw [Stmt.lower]
    exact lowerBody_binds (fun s hmem => (hbody s hmem).performs hk hc)
      fun s hmem => ih s hmem (hs.child hmem)
  | @block span body locals hbody ih =>
    exact block_binds hc (fun s hmem => (hbody s hmem).performs hk hc)
      (fun s hmem release => (hbody s hmem).declares hk hc (hs.child hmem))
      fun s hmem => ih s hmem (hs.child hmem)
  | @branch span cond whenTrue whenFalse hcond ht hf hsome iht ihf =>
    have hx := hcond.1.performs hk
    have hno (z : Stmt) (hz : whenFalse = some z) : Stmt.Binds t c n z.lower (z.scope t) :=
      have hz' := hs.child (by simp [Stmt.children, hz])
      (ihf z hz hz').withOwn fun _ => (hf z hz).declares hk hc hz'
    rw [Stmt.lower]
    cases whenTrue with
    | none =>
      cases whenFalse with
      | none => exact absurd rfl (hsome rfl)
      | some z => exact branch_binds hx hcond.2 0 ((hf z rfl).performs hk hc) (hno z rfl)
    | some y =>
      have hy := (ht y rfl).performs hk hc
      have hy' := hs.child (y := y) (by simp [Stmt.children])
      have hyes := (iht y rfl hy').withOwn fun _ => (ht y rfl).declares hk hc hy'
      cases whenFalse with
      | none =>
        simp only [lowerBranch, Stmt.bindings, bindingsOf, List.append_nil]
        exact branch_binds hx hcond.2 1 hy hyes
      | some z =>
        exact branchElse_binds hx hcond.2 1 hy ((hf z rfl).performs hk hc) hyes (hno z rfl)
  | @whileLoop span cond body hcond hbody ih =>
    have hs' := hs.child (y := body) (by simp [Stmt.children])
    have hy := hbody.performs hk hc
    have hb := (ih hs').withOwn fun _ => hbody.declares hk hc hs'
    rw [Stmt.lower, whileLoop_eq_rounds]
    have hsafe : ∀ z ∈ (none : Option (Lowering Unit)), Safe z := by simp
    have hrounds := rounds_binds (hcond.testedUnlessKnown hk) hsafe Stmt.Performs.pure hy hb
      Stmt.Binds.none false
    simp only [List.append_nil] at hrounds
    exact hrounds
  | @doWhile span body cond hbody hcond ih =>
    have hs' := hs.child (y := body) (by simp [Stmt.children])
    have hy := hbody.performs hk hc
    have hb := (ih hs').withOwn fun _ => hbody.declares hk hc hs'
    rw [Stmt.lower]
    cases cond.constant? with
    | none => exact doWhile_binds (hcond.1.performs hk) hcond.2 hy hb
    | some v => exact doWhileKnown_binds hy hb v
  | @forLoop span cond step body hcond hstep hbody ihs ihb =>
    have htested := tested_lowerOption hcond hk
    have hs' := hs.child (y := body) (by simp [Stmt.children])
    have hb := (ihb hs').withOwn fun _ => hbody.declares hk hc hs'
    rw [Stmt.lower, lowerBranch]
    cases step with
    | none =>
      exact rounds_binds htested (safe_lowerBranch none) Stmt.Performs.pure (hbody.performs hk hc) hb
        Stmt.Binds.none true
    | some s =>
      have hz' := hs.child (y := s) (by simp [Stmt.children])
      exact rounds_binds htested (safe_lowerBranch (some s)) ((hstep s rfl).performs hk hc)
        (hbody.performs hk hc) hb ((ihs s rfl hz').withOwn fun _ => (hstep s rfl).declares hk hc hz')
        true

/-- Lowering a statement guards the registers of all its variables. -/
theorem SettledStmt.scope_binds (h : SettledStmt c s) (hk : t.kind = c.kind) (hc : c.target = none)
    (hs : s.Allots lo n) : Stmt.Binds t c n s.lower (s.scope t) :=
  (h.binds hk hc hs).withOwn fun _ => h.declares hk hc hs

end Statements

/-! ## All variables -/

/-- The variable is among those of the scope around a statement or of those in it. -/
def Stmt.Lists (t : Target) (id : LocalId) (s : Stmt) : Prop :=
  ∀ release d, (∃ b ∈ s.declared t release d, b.id = id) ∨ ∃ b ∈ s.bindings t d, b.id = id

section Lists

variable {t : Target} {c : Context} {id : LocalId} {s : Stmt}

theorem Stmt.Lists.scope (h : s.Lists t id) (d : Draft) : ∃ b ∈ s.scope t d, b.id = id := by
  rcases h (after t s.lower d).code.length d with ⟨b, hb, hid⟩ | ⟨b, hb, hid⟩
  · exact ⟨b, List.mem_append_left _ hb, hid⟩
  · exact ⟨b, List.mem_append_right _ hb, hid⟩

theorem Stmt.Lists.of_scope (h : ∀ d, ∃ b ∈ s.bindings t d, b.id = id) : s.Lists t id :=
  fun _ d => .inr (h d)

theorem Stmt.Lists.body {body : List Stmt} (h : s.Lists t id) (hs : s ∈ body) (release : Nat)
    (d : Draft) :
    (∃ b ∈ declaredIn t release body d, b.id = id) ∨ ∃ b ∈ bindingsIn t body d, b.id = id := by
  induction body generalizing d with
  | nil => cases hs
  | cons s' rest ih =>
    rw [declaredIn, bindingsIn]
    rcases List.mem_cons.1 hs with rfl | hs
    · exact (h release d).imp (fun ⟨b, hb, hid⟩ => ⟨b, List.mem_append_left _ hb, hid⟩)
        fun ⟨b, hb, hid⟩ => ⟨b, List.mem_append_left _ hb, hid⟩
    · exact (ih hs (after t s'.lower d)).imp
        (fun ⟨b, hb, hid⟩ => ⟨b, List.mem_append_right _ hb, hid⟩)
        fun ⟨b, hb, hid⟩ => ⟨b, List.mem_append_right _ hb, hid⟩

/-- Every variable that is declared in a statement is listed. -/
theorem SettledStmt.lists (h : SettledStmt c s) {name type : String} {value : Option Expr}
    (hpart : s.Part (.declare span name type value (some id))) : s.Lists t id := by
  induction h with
  | @sequence _ body _ ih =>
    cases hpart with
    | inside hmem hrest => exact fun release d => (ih _ hmem hrest).body hmem release d
  | @block _ body _ _ ih =>
    cases hpart with
    | inside hmem hrest =>
      refine .of_scope fun d => ?_
      rw [Stmt.bindings]
      rcases (ih _ hmem hrest).body hmem (after t (lowerBody body) d).code.length d with
        ⟨b, hb, hid⟩ | ⟨b, hb, hid⟩
      · exact ⟨b, List.mem_append_left _ hb, hid⟩
      · exact ⟨b, List.mem_append_right _ hb, hid⟩
  | @branch _ cond whenTrue whenFalse _ _ _ _ iht ihf =>
    cases hpart with
    | inside hmem hrest =>
      have hno (z : Stmt) (hz : whenFalse = some z) (hrest : z.Part _) (d : Draft) :
          ∃ b ∈ bindingsOf t whenFalse d, b.id = id := hz ▸ (ihf z hz hrest).scope d
      refine .of_scope fun d => ?_
      cases whenTrue with
      | none =>
        rw [Stmt.bindings]
        exact hno _ (Option.mem_toList.1 (by simpa [Stmt.children] using hmem)) hrest _
      | some y =>
        rw [Stmt.bindings]
        rcases List.mem_cons.1 hmem with rfl | hmem
        · obtain ⟨b, hb, hid⟩ := (iht _ rfl hrest).scope (t := t) (after t (branchTest cond.lower 1) d)
          exact ⟨b, List.mem_append_left _ hb, hid⟩
        · obtain ⟨b, hb, hid⟩ := hno _ (Option.mem_toList.1 hmem) hrest _
          exact ⟨b, List.mem_append_right _ hb, hid⟩
  | whileLoop _ _ ih =>
    cases hpart with
    | inside hmem hrest =>
      obtain rfl := List.mem_singleton.1 hmem
      exact .of_scope fun d => (ih hrest).scope _
  | doWhile _ _ ih =>
    cases hpart with
    | inside hmem hrest =>
      obtain rfl := List.mem_singleton.1 hmem
      exact .of_scope fun d => (ih hrest).scope _
  | @forLoop _ cond step body _ _ _ ihs ihb =>
    cases hpart with
    | inside hmem hrest =>
      refine .of_scope fun d => ?_
      rw [Stmt.bindings]
      rcases List.mem_append.1 (by simpa only [Stmt.children, Option.toList_none, List.nil_append]
        using hmem) with hmem | hmem
      · obtain rfl := Option.mem_toList.1 hmem
        obtain ⟨b, hb, hid⟩ := (ihs _ rfl hrest).scope _
        exact ⟨b, List.mem_append_right _ hb, hid⟩
      · obtain rfl := List.mem_singleton.1 hmem
        obtain ⟨b, hb, hid⟩ := (ihb hrest).scope _
        exact ⟨b, List.mem_append_left _ hb, hid⟩
  | declare =>
    cases hpart with
    | root =>
      intro release d
      rw [Stmt.declared]
      exact .inl ⟨_, List.mem_singleton_self _, rfl⟩
    | inside hmem => cases hmem
  | nop | expr | jump | ret =>
    cases hpart with
    | inside hmem => cases hmem

end Lists

end ActorScript
