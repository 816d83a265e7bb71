import ActorScript.Proofs.Lowering.Trees
import ActorScript.Proofs.Machine.Basic
import ActorScript.Proofs.Machine.Floats
import Mathlib.Order.Interval.Set.Basic

/-! # Values that code computes

Code for a value computes a number if every run of it, started with the variables in their
registers, ends just behind it with the number at the place that lowering gave, and with no
register changed that was in use.
-/

namespace ActorScript

open Lowering (toRegister convert)

variable {n : Nat} {d : Draft} {r : Registers} {block : List Instr}

/-- A number, of the kind that one of the banks holds. -/
inductive Datum where
  | word (v : Int32)
  | float (v : Float)

def Datum.bank : Datum → Bank
  | word _ => .int
  | float _ => .float

theorem Datum.bank_ne_pointer (v : Datum) : v.bank ≠ .pointer := by
  cases v <;> simp [bank]

def Datum.ofBool (b : Bool) : Datum :=
  .word (if b then 1 else 0)

/-! ## Numbers at places -/

@[simp]
theorem Place.value_operand (p : Place) : p.operand.value = p.number := by
  unfold operand
  split <;> rfl

namespace Registers

def Has (r : Registers) (n : Nat) : Datum → Prop
  | .word v => r.word n = v
  | .float v => r.float n = v

/-- A number is at a place, in a register or in the pool. -/
def Reads (r : Registers) (pools : Pools) (p : Place) (v : Datum) : Prop :=
  match v with
  | .word v => r.wordAt pools p.isConstant p.number = some v
  | .float v => r.floatAt pools p.isConstant p.number = some v

section

variable {r r' : Registers} {pools : Pools} {p : Place} {v : Datum} {S : Set Register}

theorem reads_register (hc : p.isConstant = false) : r.Reads pools p v ↔ r.Has p.number v := by
  cases v <;> simp [Reads, Has, wordAt, floatAt, hc]

theorem Has.agree (h : r.Has n v) (ha : r.Agree S r') (hS : (v.bank, n) ∈ S) : r'.Has n v := by
  cases v with
  | word v => exact (ha.word n hS).trans h
  | float v => exact (ha.float n hS).trans h

/-- A number stays at its place while its register does. -/
theorem Reads.agree (h : r.Reads pools p v) (ha : r.Agree S r')
    (hS : p.isConstant = false → (v.bank, p.number) ∈ S) : r'.Reads pools p v := by
  cases hc : p.isConstant with
  | false => exact (reads_register hc).2 (((reads_register hc).1 h).agree ha (hS hc))
  | true => cases v <;> simpa [Reads, wordAt, floatAt, hc] using h

end

end Registers

/-- The variables that hold numbers have those of an environment in their registers. -/
def Draft.Binds (d : Draft) (env : LocalId → Datum) (r : Registers) : Prop :=
  ∀ v b n, d.Home v (b, n) → (env v).bank = b → r.Has n (env v)

variable {env : LocalId → Datum}

theorem Draft.Binds.agree {c : Context} {r' : Registers} (h : d.Binds env r) (hd : Sound c d)
    (ha : r.Agree d.live r') : d.Binds env r' := by
  intro v b n hhome hb
  subst hb
  exact (h v _ n hhome rfl).agree ha (hd.home_live hhome)

theorem Draft.Binds.later {d' : Draft} (h : d.Binds env r) (hs : d'.surroundings = d.surroundings) :
    d'.Binds env r :=
  fun v b n hhome => h v b n ((Draft.home_iff hs).1 hhome)

theorem Leaves.keeps {c : Context} {f : Footprint} {d1 : Draft} {p : Place} (hd : Sound c d)
    (h : Leaves f d p d1) {r' : Registers} {pools : Pools} {v : Datum} (hb : f.bank? = some v.bank)
    (hr : r.Reads pools p v) (ha : r.Agree d1.live r') : r'.Reads pools p v := by
  refine hr.agree ha fun hc => h.inUse hd (fun hs => ?_) hc (h.bank.trans hb)
  have hpointer : f.bank? = some .pointer := by rw [← h.bank, h.self hs, Place.fixed]
  exact absurd (Option.some.inj (hb.symm.trans hpointer)) v.bank_ne_pointer

/-! ## Code that computes -/

/-- Running the code of a value ends just behind it, with the value at its place and no register
changed that was in use. -/
def Computes (P : Program) (t : Target) (c : Context) (env : LocalId → Datum)
    (x : Lowering Place) (v : Datum) : Prop :=
  ∀ d p d' r, Sound c d → Yields t x d p d' → P.Has d.code.length (d.since d') →
    Pools.Grow d'.pools P.pools → d.Binds env r →
    ∃ r', P.Runs (Set.Ico d.code.length d'.code.length) d.code.length r d'.code.length r' ∧
      r.Agree d.live r' ∧ r'.Reads P.pools p v

namespace Program

variable {P : Program} {d d1 d2 : Draft}

theorem has_since_trans (h : d.code <+: d1.code) (h' : d1.code <+: d2.code) :
    P.Has d.code.length (d.since d2) ↔
      P.Has d.code.length (d.since d1) ∧ P.Has d1.code.length (d1.since d2) := by
  have hlen : d.code.length + (d.since d1).length = d1.code.length := by
    rw [← List.length_append, ← Draft.code_eq_since h]
  rw [Draft.since_trans h h', has_append, hlen]

/-- Runs through code that was added in two steps. -/
theorem Runs.through {r1 r2 : Registers} {k l m : Nat}
    (h : P.Runs (Set.Ico d.code.length d1.code.length) k r l r1)
    (h' : P.Runs (Set.Ico d1.code.length d2.code.length) l r1 m r2) (hcode : d.code <+: d1.code)
    (hcode' : d1.code <+: d2.code) : P.Runs (Set.Ico d.code.length d2.code.length) k r m r2 :=
  (h.mono (Set.Ico_subset_Ico_right hcode'.length_le)).trans
    (h'.mono (Set.Ico_subset_Ico_left hcode.length_le))

theorem has_behind (hpre : d.code <+: d1.code) (hcode : d2.code = d1.code ++ block) :
    P.Has d.code.length (d.since d2) ↔
      P.Has d.code.length (d.since d1) ∧ P.Has d1.code.length block := by
  rw [has_since_trans hpre (hcode ▸ List.prefix_append _ _), Draft.since_of_eq hcode]

/-- A block of code at a position runs to its end, puts a number into a register and leaves the
others alone. -/
def Fills (P : Program) (k : Nat) (block : List Instr) (r : Registers) (n : Nat) (v : Datum) :
    Prop :=
  ∃ r', P.Runs (Set.Ico k (k + block.length)) k r (k + block.length) r' ∧
    (∀ S, (v.bank, n) ∉ S → r.Agree S r') ∧ r'.Has n v

theorem Fills.behind {r1 : Registers} {v : Datum} (h : P.Fills d1.code.length block r1 n v)
    (hpre : d.code <+: d1.code) (hblock : d2.code = d1.code ++ block)
    (hrun : P.Runs (Set.Ico d.code.length d1.code.length) d.code.length r d1.code.length r1)
    (hagree : r.Agree d.live r1) (hfree : (v.bank, n) ∉ d.live) :
    ∃ r', P.Runs (Set.Ico d.code.length d2.code.length) d.code.length r d2.code.length r' ∧
      r.Agree d.live r' ∧ r'.Reads P.pools (.fresh v.bank n) v := by
  obtain ⟨r', hrun', hagree', hv⟩ := h
  rw [← List.length_append, ← hblock] at hrun'
  refine ⟨r', hrun.through hrun' hpre (hblock ▸ List.prefix_append _ _), ?_, ?_⟩
  · exact hagree.trans (hagree' _ hfree)
  · exact (Registers.reads_register rfl).2 hv

end Program

section Simple

variable {P : Program} {t : Target} {c : Context} {env : LocalId → Datum}

theorem variable_computes (v : LocalId) (hty : (c.types v).bank? = some (env v).bank) :
    Computes P t c env (do
      let place ← Lowering.home v
      return { place with isVariable := false }) (env v) := by
  intro d p d' r hd h _ _ hs
  obtain ⟨rfl, b, n, hbank, hhome, -, rfl⟩ := yields_variable hd h
  refine ⟨r, .done, .refl _ _, (Registers.reads_register rfl).2 (hs v b n hhome ?_)⟩
  exact Option.some.inj (hty.symm.trans hbank)

end Simple

/-! ## Single instructions -/

namespace Program

variable {P : Program} {k n : Nat} {r : Registers} {i : Instr} {p : Place} {v : Datum}

theorem fills_word {u : Int32} (hcode : P.Has k [i])
    (hstep : i.step? P.pools r = some (r.setWord n u, 1)) : P.Fills k [i] r n (.word u) := by
  rw [has_cons] at hcode
  refine ⟨r.setWord n u, .step ?_ hcode.1 hstep rfl .done, ?_, ?_⟩
  · simp
  · exact fun S hS => .setWord hS u
  · simp [Registers.Has]

theorem fills_float {u : Float} (hcode : P.Has k [i])
    (hstep : i.step? P.pools r = some (r.setFloat n u, 1)) : P.Fills k [i] r n (.float u) := by
  rw [has_cons] at hcode
  refine ⟨r.setFloat n u, .step ?_ hcode.1 hstep rfl .done, ?_, ?_⟩
  · simp
  · exact fun S hS => .setFloat hS u
  · simp [Registers.Has]

theorem fills_copyOf (hcode : P.Has k [copyOf (some v.bank) (.fresh v.bank n) p])
    (hr : r.Reads P.pools p v) :
    P.Fills k [copyOf (some v.bank) (.fresh v.bank n) p] r n v := by
  cases v with
  | word v =>
    refine fills_word hcode ?_
    cases hc : p.isConstant <;> simp_all [Registers.Reads, Registers.wordAt, copyOf, Instr.step?,
      Instr.stepThree?, Op.loadConstant, Op.moveOf, Datum.bank]
  | float v =>
    refine fills_float hcode ?_
    cases hc : p.isConstant with
    | false =>
      simp_all [Registers.Reads, Registers.floatAt, copyOf, Instr.step?, Instr.stepThree?,
        Op.moveOf, Datum.bank]
    | true =>
      obtain ⟨bits, hbits, rfl⟩ : ∃ bits, P.pools.floats.entries[p.number]? = some bits ∧
          Float.ofBits bits = v := by simpa [Registers.Reads, Registers.floatAt, hc] using hr
      simp [copyOf, hc, Instr.step?, Op.loadConstant, Datum.bank, hbits]

end Program

section Unary

variable {P : Program} {t : Target} {c : Context} {env : LocalId → Datum} {x : Lowering Place}
  {f : Footprint} {v : Datum}

/-- A block of code behind an operand that leaves a number in a register that was free before it. -/
theorem computes_behind (hx : Lowers t c x f) (hxv : Computes P t c env x v) {d1 d' : Draft}
    {p : Place} {s : Registers} {u : Datum} (hd : Sound c d) (hp : Yields t x d p d1)
    (hfree : (u.bank, n) ∉ d.live) (hblock : d'.code = d1.code ++ block)
    (hcode : P.Has d.code.length (d.since d')) (hpools : Pools.Grow d1.pools P.pools)
    (hs : d.Binds env s)
    (hfills : ∀ s : Registers, P.Has d1.code.length block → s.Reads P.pools p v →
      P.Fills d1.code.length block s n u) :
    ∃ s', P.Runs (Set.Ico d.code.length d'.code.length) d.code.length s d'.code.length s' ∧
      s.Agree d.live s' ∧ s'.Reads P.pools (.fresh u.bank n) u := by
  have hp' := hx d p d1 hd hp
  obtain ⟨hcode1, hbehind⟩ := (Program.has_behind hp'.code hblock).1 hcode
  obtain ⟨s1, hrun, hagree, hv⟩ := hxv d p d1 s hd hp hcode1 hpools hs
  exact (hfills s1 hbehind hv).behind hp'.code hblock hrun hagree hfree

theorem toRegister_lowers [Safe x] (hx : Lowers t c x f) :
    Lowers t c (do toRegister (← x)) { f with isPooled := false } := by
  intro d p d' hd h
  obtain ⟨q, d1, hq, h⟩ := yields_bind.1 h
  exact (hx d q d1 hd hq).toRegister h

theorem toRegister_computes [Safe x] (hx : Lowers t c x f) (hxv : Computes P t c env x v)
    (hf : f.bank? = some v.bank) : Computes P t c env (do toRegister (← x)) v := by
  intro d p d' s hd h hcode hpools hs
  obtain ⟨q, d1, hq, h⟩ := yields_bind.1 h
  have hq' := hx d q d1 hd hq
  unfold toRegister at h
  split at h
  next hc =>
    simp only [yields_steps, yields_alloc] at h
    obtain ⟨_, _, ⟨b, n, hbank, offered, rfl, rfl⟩, -, rfl, rfl⟩ := h
    cases (hq'.bank.trans hf).symm.trans hbank
    have hload : copyOf (some v.bank) (.fresh v.bank n) q =
        .abx (.loadConstant q.bank?) (.reg (some v.bank) n) q.operand := by
      simp [copyOf, hc, hbank]
    refine computes_behind hx hxv hd hq (fun hl => offered.not_live ((hq'.live _).2 (.inl hl)))
      (Draft.code_push _ _) hcode hpools hs fun s hhas hv => ?_
    rw [Place.operand_fresh, ← hload] at hhas ⊢
    exact Program.fills_copyOf hhas hv
  next =>
    obtain ⟨rfl, rfl⟩ := yields_pure.1 h
    exact hxv d p d' s hd hq hcode hpools hs

theorem castToFloat_computes [Safe x] (hx : Lowers t c x f) {u : Int32}
    (hxv : Computes P t c env x (.word u)) (hf : f.bank? = some .int) (source : Ty) :
    Computes P t c env (Lowering.cast .float source x) (.float (wordToFloat source u)) := by
  intro d p d' s hd h hcode hpools hs
  simp only [Lowering.cast, convert, yields_steps, yields_alloc] at h
  obtain ⟨p0, d1, hx', q, d2, hq, -, _, _, ⟨b, n, hb, offered, rfl, rfl⟩, -, rfl, rfl⟩ := h
  cases hb
  have hreg : Yields t (do toRegister (← x)) d q d2 := yields_bind.2 ⟨p0, d1, hx', hq⟩
  have hlowers := toRegister_lowers hx
  have hq' := hlowers d q d2 hd hreg
  have hfree : (.float, n) ∉ d.live := by
    refine fun hl => offered.not_live ?_
    rw [Draft.live_drop]
    exact ⟨(hq'.live _).2 (.inl hl), fun howned => hq'.fresh _ howned hl⟩
  have hcode2 : ((d2.drop q).take .float n).code = d2.code := d2.code_drop q
  refine computes_behind (u := .float _) hlowers (toRegister_computes hx hxv hf) hd hreg hfree
    (hcode2 ▸ Draft.code_push _ _) hcode (by simpa using hpools) hs fun s hhas hv => ?_
  refine Program.fills_float hhas ?_
  rw [Registers.reads_register hq'.pooled] at hv
  obtain rfl : s.word q.number = u := hv
  unfold wordToFloat
  cases source.isUnsigned <;> simp [Instr.step?, Instr.stepThree?, Conversion.code]

end Unary

end ActorScript
