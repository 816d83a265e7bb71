import ActorScript.Proofs.Footprint
import ActorScript.Proofs.Lowering.Paths
import ActorScript.Proofs.Lowering.Safety
import ActorScript.Proofs.Operands

/-! # What lowering promises

Code is added behind the code that is there, registers in use are left alone but for those of
the variables that are written, and the value is left where the tree says.
-/

namespace ActorScript

variable {bank? : Option Bank} {n q k : Nat} {i : Instr} {p : Place} {d d' : Draft} {v : LocalId}
  {r : Register} {clashes : Bool} {b : Bank} {w : List LocalId} {held : Set Register} {t : Target}

/-- A pooled operand is the index of an entry. -/
def Operand.Within (pools : Pools) (o : Operand) : Prop :=
  ∀ b i, o = .pool (some b) i → i < pools.size b

def Instr.Within (pools : Pools) (i : Instr) : Prop :=
  ∀ o ∈ i.operands, o.Within pools

section Within

variable {pools : Pools} {op : Op} {a b c bx : Operand}

@[simp]
theorem Operand.within_reg : Within pools (.reg bank? n) := by
  simp [Within]

@[simp]
theorem Operand.within_imm : Within pools (.imm n) := by
  simp [Within]

@[simp]
theorem Operand.within_pool {bank : Bank} {i : Nat} :
    Within pools (.pool (some bank) i) ↔ i < pools.size bank := by
  simp [Within]

@[simp]
theorem Instr.within_abc :
    Within pools (.abc op a b c) ↔ a.Within pools ∧ b.Within pools ∧ c.Within pools := by
  simp [Within, operands]

@[simp]
theorem Instr.within_abx : Within pools (.abx op a bx) ↔ a.Within pools ∧ bx.Within pools := by
  simp [Within, operands]

@[simp]
theorem Instr.within_asbx {offset : Int} : Within pools (.asbx op a offset) ↔ a.Within pools := by
  simp [Within, operands]

end Within

theorem Operand.Within.grow {p q : Pools} {o : Operand} (h : o.Within p) (hg : Pools.Grow p q) :
    o.Within q :=
  fun b n hn => (h b n hn).trans_le (hg.size_le b)

theorem Instr.Within.grow {p q : Pools} (h : i.Within p) (hg : Pools.Grow p q) : i.Within q :=
  fun o ho => (h o ho).grow hg

theorem Draft.within_store (d : Draft) (e : Entry) :
    Operand.Within (d.store e).pools (.pool (some e.bank) (d.indexOf e)) := by
  simpa using d.indexOf_lt e

namespace Draft

def Home (d : Draft) (v : LocalId) (r : Register) : Prop :=
  ∃ place, d.homes[v]? = some (some place) ∧ place.bank? = some r.1 ∧ place.number = r.2

theorem homes_eq (h : d'.surroundings = d.surroundings) : d'.homes = d.homes :=
  congrArg Prod.fst h

theorem loops_eq (h : d'.surroundings = d.surroundings) : d'.loops = d.loops :=
  congrArg (·.2.1) h

theorem assigned_eq (h : d'.surroundings = d.surroundings) : d'.assigned = d.assigned :=
  congrArg (·.2.2) h

theorem home_iff (h : d'.surroundings = d.surroundings) : d'.Home v r ↔ d.Home v r := by
  rw [Home, Home, homes_eq h]

/-- An instruction writes no register in use but for those of some variables. -/
def Spares (d : Draft) (writes : List LocalId) (i : Instr) : Prop :=
  ∀ r, i.target? = some r → r ∈ d.live → ∃ v ∈ writes, d.Home v r

def Writes (d : Draft) (v : LocalId) (i : Instr) : Prop :=
  ∃ r, i.target? = some r ∧ d.Home v r

end Draft

/-- What some code does besides leaving a value. -/
structure Effect where
  /-- Whether every instruction names the register that it writes. -/
  banked : Bool := true
  writes : List LocalId := []
  clashes : Bool := false

instance : Append Effect where
  append a b := ⟨a.banked && b.banked, a.writes ++ b.writes, a.clashes || b.clashes⟩

section

variable (a b : Effect)

@[simp] theorem Effect.banked_append : (a ++ b).banked = (a.banked && b.banked) := rfl
@[simp] theorem Effect.writes_append : (a ++ b).writes = a.writes ++ b.writes := rfl
@[simp] theorem Effect.clashes_append : (a ++ b).clashes = (a.clashes || b.clashes) := rfl

theorem Effect.mk_append_mk {banked banked' : Bool} {writes writes' : List LocalId}
    {clashes' : Bool} :
    Effect.mk banked writes clashes ++ ⟨banked', writes', clashes'⟩ =
      ⟨banked && banked', writes ++ writes', clashes || clashes'⟩ := rfl

theorem Effect.append_assoc (c : Effect) : a ++ b ++ c = a ++ (b ++ c) := by
  cases a
  cases b
  cases c
  simp [mk_append_mk, Bool.and_assoc, Bool.or_assoc]

@[simp]
theorem Effect.append_none : a ++ ⟨true, [], false⟩ = a := by
  change Effect.mk (a.banked && true) (a.writes ++ []) (a.clashes || false) = a
  simp

@[simp]
theorem Effect.none_append : (⟨true, [], false⟩ : Effect) ++ a = a := by
  change Effect.mk (true && a.banked) ([] ++ a.writes) (false || a.clashes) = a
  simp

end

namespace Draft

def since (d d' : Draft) : List Instr :=
  d'.code.drop d.code.length

theorem since_of_eq {seg : List Instr} (h : d'.code = d.code ++ seg) : d.since d' = seg := by
  simp [since, h]

theorem code_eq_since (h : d.code <+: d'.code) : d'.code = d.code ++ d.since d' := by
  obtain ⟨seg, hseg⟩ := h
  rw [since_of_eq hseg.symm, hseg]

theorem since_trans {d1 d2 : Draft} (h : d.code <+: d1.code) (h' : d1.code <+: d2.code) :
    d.since d2 = d.since d1 ++ d1.since d2 := by
  apply since_of_eq
  rw [code_eq_since h', code_eq_since h, List.append_assoc]

def JumpAt (d : Draft) (k : Nat) : Prop :=
  ∃ offset, d.code[k]? = some (.asbx .jmp (.imm 0) offset)

section JumpAt

variable {d : Draft} {k : Nat}

theorem JumpAt.lt (h : d.JumpAt k) : k < d.code.length := by
  obtain ⟨offset, h⟩ := h
  exact (List.getElem?_eq_some_iff.1 h).1

theorem JumpAt.later (h : d.JumpAt k) (hcode : d.code <+: d'.code) : d'.JumpAt k := by
  have hlt := h.lt
  obtain ⟨offset, hk⟩ := h
  obtain ⟨seg, hseg⟩ := hcode
  exact ⟨offset, by rw [← hseg, List.getElem?_append_left hlt, hk]⟩

@[simp]
theorem jumpAt_push : (d.push i).JumpAt k ↔
    d.JumpAt k ∨ k = d.code.length ∧ ∃ offset, i = .asbx .jmp (.imm 0) offset := by
  simp only [JumpAt, code_push, List.getElem?_append, List.getElem?_singleton]
  grind

@[simp]
theorem jumpAt_retarget {source target : Nat} (h : d.JumpAt k) :
    (d.retarget source target).JumpAt k := by
  obtain ⟨offset, h⟩ := h
  unfold JumpAt
  rw [code_retarget, List.getElem?_modify, h]
  by_cases hs : source = k
  · exact ⟨Assembly.jumpOffset source target, by simp [hs, Instr.withOffset, Instr.op, Instr.first]⟩
  · exact ⟨offset, by simp [hs]⟩

@[simp] theorem jumpAt_take : (d.take b n).JumpAt k ↔ d.JumpAt k := Iff.rfl
@[simp] theorem jumpAt_store {e : Entry} : (d.store e).JumpAt k ↔ d.JumpAt k := Iff.rfl
@[simp] theorem jumpAt_drop : (d.drop p).JumpAt k ↔ d.JumpAt k := by simp [JumpAt]

end JumpAt

end Draft

/-- Changing an element of a list keeps what is said of all or of some of its elements, if it
keeps it for that one. -/
theorem Draft.forall_mem_modify {α : Type} {P : α → Prop} {l : List α} {f : α → α} {a : α}
    (ha : l[k]? = some a) (h : P (f a) ↔ P a) : (∀ i ∈ l.modify k f, P i) ↔ ∀ i ∈ l, P i := by
  simp only [List.mem_iff_getElem?, List.getElem?_modify, forall_exists_index]
  constructor
  · intro hall i n hn
    by_cases hk : k = n
    · subst hk
      cases ha.symm.trans hn
      exact h.1 (hall _ k (by simp [ha]))
    · exact hall i n (by simp [hk, hn])
  · intro hall i n hn
    by_cases hk : k = n
    · subst hk
      cases (by simpa [ha] using hn : f a = i)
      exact h.2 (hall a k ha)
    · exact hall i n (by simpa [hk] using hn)

theorem Draft.exists_mem_modify {α : Type} {P : α → Prop} {l : List α} {f : α → α} {a : α}
    (ha : l[k]? = some a) (h : P (f a) ↔ P a) : (∃ i ∈ l.modify k f, P i) ↔ ∃ i ∈ l, P i := by
  have := Draft.forall_mem_modify (P := fun i => ¬ P i) ha (not_congr h)
  simpa only [not_forall, not_not, exists_prop] using not_congr this

theorem Draft.since_retarget (h : d.code <+: d'.code) (hk : d.code.length ≤ k) :
    d.code <+: (d'.retarget k n).code ∧
      d.since (d'.retarget k n) = (d.since d').modify (k - d.code.length)
        (·.withOffset (Assembly.jumpOffset k n)) := by
  obtain ⟨m, rfl⟩ := Nat.exists_eq_add_of_le hk
  have hcode : (d'.retarget (d.code.length + m) n).code = d.code ++ (d.since d').modify m
      (·.withOffset (Assembly.jumpOffset (d.code.length + m) n)) := by
    rw [Draft.code_retarget]
    apply List.ext_getElem?
    intro i
    rw [Draft.code_eq_since h]
    simp only [List.getElem?_modify, List.getElem?_append]
    grind
  exact ⟨hcode ▸ List.prefix_append _ _, by
    rw [Draft.since_of_eq hcode, Nat.add_sub_cancel_left]⟩

theorem Draft.JumpAt.since (hj : d'.JumpAt k) (h : d.code <+: d'.code) (hk : d.code.length ≤ k) :
    ∃ offset, (d.since d')[k - d.code.length]? = some (.asbx .jmp (.imm 0) offset) := by
  obtain ⟨offset, hj⟩ := hj
  rw [Draft.code_eq_since h, List.getElem?_append_right hk] at hj
  exact ⟨offset, hj⟩

/-- A jump leads to a place within the code added since or to its end. -/
theorem Closed.retarget (h : Closed (d.since d')) (hcode : d.code <+: d'.code) (hj : d'.JumpAt k)
    (hk : d.code.length ≤ k) (hlow : d.code.length ≤ n) (hn : n ≤ d'.code.length)
    (hfits : fitsOffset (Assembly.jumpOffset k n) = true) : Closed (d.since (d'.retarget k n)) := by
  obtain ⟨offset, hj⟩ := hj.since hcode hk
  have hlen := congrArg List.length (Draft.code_eq_since hcode)
  rw [List.length_append] at hlen
  rw [(Draft.since_retarget hcode hk).2]
  unfold Assembly.jumpOffset at hfits ⊢
  exact h.withOffset hj hfits (by omega) (by omega)

/-- Code was added to a draft. It is within the pools, its operands fit unless something clashes,
and it leads nowhere but into itself and to its end. -/
structure Grows (d : Draft) (clashes : Bool) (d' : Draft) : Prop where
  code : d.code <+: d'.code
  pools : Pools.Grow d.pools d'.pools
  within : ∀ i ∈ d.since d', i.Within d'.pools
  fits : (∀ i ∈ d.since d', i.fits = true) ↔ clashes = false
  closed : Closed (d.since d')

namespace Grows

variable {d d1 d2 : Draft} {clashes clashes' : Bool}

theorem of_code (code : d1.code = d.code) (pools : Pools.Grow d.pools d1.pools) :
    Grows d false d1 := by
  have hsince : d.since d1 = [] := by simp [Draft.since, code]
  exact {
    code := code ▸ List.prefix_rfl
    pools := pools
    within := by simp [hsince]
    fits := by simp [hsince]
    closed := hsince ▸ closed_nil }

theorem refl (d : Draft) : Grows d false d :=
  of_code rfl (.refl _)

theorem trans (h : Grows d clashes d1) (h' : Grows d1 clashes' d2) :
    Grows d (clashes || clashes') d2 where
  code := h.code.trans h'.code
  pools := h.pools.trans h'.pools
  within i hi := by
    rw [Draft.since_trans h.code h'.code] at hi
    rcases List.mem_append.1 hi with hi | hi
    · exact (h.within i hi).grow h'.pools
    · exact h'.within i hi
  fits := by
    simp only [Draft.since_trans h.code h'.code, List.mem_append, or_imp, forall_and, h.fits,
      h'.fits, Bool.or_eq_false_iff]
  closed := by
    rw [Draft.since_trans h.code h'.code]
    exact h.closed.concat h'.closed

/-- Behind closed code, all the code is closed. -/
theorem closes (h : Grows d clashes d1) (hc : Closed d.code) : Closed d1.code := by
  rw [Draft.code_eq_since h.code]
  exact hc.concat h.closed

theorem patch (h : Grows d clashes d1) (hj : d1.JumpAt k) (hk : d.code.length ≤ k)
    (hlow : d.code.length ≤ n) (hn : n ≤ d1.code.length)
    (hfits : fitsOffset (Assembly.jumpOffset k n) = true) : Grows d clashes (d1.retarget k n) := by
  have hclosed := h.closed.retarget h.code hj hk hlow hn hfits
  obtain ⟨offset, hj⟩ := hj.since h.code hk
  obtain ⟨hcode, hsince⟩ := Draft.since_retarget (n := n) h.code hk
  exact { h with
    code := hcode
    within := hsince ▸ (Draft.forall_mem_modify hj (by exact Iff.rfl)).2 h.within
    fits := hsince ▸ (Draft.forall_mem_modify hj (by exact Iff.rfl)).trans h.fits
    closed := hclosed }

theorem jumpTo (h : Grows d clashes d1) {target : Nat} (hlow : d.code.length ≤ target)
    (htarget : target ≤ d1.code.length)
    (hfits : fitsOffset (Assembly.jumpOffset d1.code.length target) = true) :
    Grows d clashes
      (d1.push (.asbx .jmp (.imm 0) (Assembly.jumpOffset d1.code.length target))) := by
  have hcode : d1.code <+: (d1.push (.asbx .jmp (.imm 0)
      (Assembly.jumpOffset d1.code.length target))).code := by simp
  have hlen := congrArg List.length (Draft.code_eq_since h.code)
  rw [List.length_append] at hlen
  have hsince := Draft.since_trans h.code hcode
  rw [Draft.since_of_eq (Draft.code_push d1 _)] at hsince
  exact { h with
    code := h.code.trans hcode
    within := fun i hi => by
      rcases List.mem_append.1 (hsince ▸ hi) with hi | hi
      · exact h.within i hi
      · cases List.mem_singleton.1 hi
        simp
    fits := by simp only [hsince, List.mem_append, or_imp, forall_and, h.fits]; simp
    closed := by
      rw [hsince]
      unfold Assembly.jumpOffset at hfits ⊢
      exact h.closed.jump hfits (by omega) (by omega) }

end Grows

/-- No way leads through the code added since but over an instruction that writes the register. -/
def Draft.Fills (d d' : Draft) (r : Register) : Prop :=
  ¬ Dry d'.code r d.code.length d'.code.length

namespace Draft

variable {d d1 d2 : Draft} {r : Register} {clashes : Bool} {i : Instr}

@[simp] theorem fills_take : d.Fills (d1.take b n) r ↔ d.Fills d1 r := Iff.rfl
@[simp] theorem fills_store {e : Entry} : d.Fills (d1.store e) r ↔ d.Fills d1 r := Iff.rfl
@[simp] theorem fills_drop : d.Fills (d1.drop p) r ↔ d.Fills d1 r := by simp [Fills]

theorem fills_of_write (hi : d1.code[d.code.length]? = some i) (target : i.target? = some r) :
    d.Fills d1 r := by
  intro hdry
  have hlt := (List.getElem?_eq_some_iff.1 hi).1
  have := hdry.eq_of_write hi target
  omega

/-- Code that fills a register holds those up that have not written it. -/
theorem Fills.dry_lt (h : d.Fills d1 r) (hg : Grows d clashes d1) (hcode : d1.code <+: d2.code)
    (hdry : Dry d2.code r d.code.length q) : d.code.length ≤ q ∧ q < d1.code.length := by
  have hlen := congrArg List.length (code_eq_since hg.code)
  rw [List.length_append] at hlen
  rw [code_eq_since hcode, code_eq_since hg.code] at hdry
  rw [Fills, hlen, code_eq_since hg.code] at h
  rw [hlen]
  exact hdry.lt_of_filled hg.closed h

theorem Fills.not_dry (h : d.Fills d1 r) (hg : Grows d clashes d1) (hcode : d1.code <+: d2.code)
    (hq : d1.code.length ≤ q) : ¬ Dry d2.code r d.code.length q := by
  intro hdry
  have := (h.dry_lt hg hcode hdry).2
  omega

theorem Fills.lt (h : d.Fills d1 r) (hcode : d.code <+: d1.code) :
    d.code.length < d1.code.length := by
  refine lt_of_le_of_ne hcode.length_le fun heq => h ?_
  rw [heq]
  exact .start

theorem Fills.later (h : d.Fills d1 r) (hg : Grows d clashes d1) (hcode : d1.code <+: d2.code) :
    d.Fills d2 r :=
  h.not_dry hg hcode hcode.length_le

theorem Fills.behind (h : d1.Fills d2 r) (hg : Grows d clashes d1) (hcode : d1.code <+: d2.code) :
    d.Fills d2 r := by
  intro hdry
  have hlen := congrArg List.length (code_eq_since hg.code)
  have hle := hcode.length_le
  rw [List.length_append] at hlen
  rw [Fills, hlen] at h
  have hcode2 : d2.code = d.code ++ d.since d1 ++ d1.since d2 := by
    rw [← code_eq_since hg.code, ← code_eq_since hcode]
  rw [hcode2] at hdry h
  rcases hdry.behind hg.closed with hlt | hdry
  · rw [← hcode2] at hlt
    omega
  · exact h hdry

/-- What is added behind does not lead back. -/
theorem not_dry_later {clashes' : Bool} (hg : Grows d clashes d1) (hg' : Grows d1 clashes' d2)
    (h : ¬ Dry d1.code r d.code.length q) (hq : q < d1.code.length) :
    ¬ Dry d2.code r d.code.length q := by
  intro hdry
  have hlen := congrArg List.length (code_eq_since hg.code)
  rw [List.length_append] at hlen
  rw [code_eq_since hg'.code, code_eq_since hg.code] at hdry
  rw [code_eq_since hg.code] at h
  exact h (hdry.earlier hg.closed hg'.closed (by omega))

/-- From the end of the code there is no way back. -/
theorem not_dry_patch (hj : d1.JumpAt k) (h : ¬ Dry d1.code r d.code.length q)
    (hq : q < d1.code.length) : ¬ Dry (d1.retarget k d1.code.length).code r d.code.length q := by
  obtain ⟨offset, hj⟩ := hj
  intro hdry
  rw [code_retarget] at hdry
  rcases hdry.of_withOffset hj with hdry | ⟨-, n, hn, hdry⟩
  · exact h hdry
  · unfold Assembly.jumpOffset at hn
    have := hdry.eq_of_end (by rw [List.length_modify]; omega)
    omega

/-- A jump that only those come to who have written the register may lead anywhere. -/
theorem not_dry_retarget (hj : d1.JumpAt k) (h : ¬ Dry d1.code r d.code.length q)
    (hk : ¬ Dry d1.code r d.code.length k) : ¬ Dry (d1.retarget k n).code r d.code.length q := by
  obtain ⟨offset, hj⟩ := hj
  intro hdry
  rw [code_retarget] at hdry
  rcases hdry.of_withOffset hj with hdry | ⟨hdry, -⟩
  · exact h hdry
  · exact hk hdry

theorem Fills.retarget (h : d.Fills d1 r) (hj : d1.JumpAt k)
    (hk : ¬ Dry d1.code r d.code.length k) : d.Fills (d1.retarget k n) r := by
  rw [Fills, code_retarget, List.length_modify, ← code_retarget]
  exact not_dry_retarget hj h hk

/-- Any jump may lead to an instruction that writes the register. -/
theorem Fills.retargetTo (h : d.Fills d1 r) (hj : d1.JumpAt k)
    (hi : (d1.retarget k n).code[n]? = some i) (target : i.target? = some r) :
    d.Fills (d1.retarget k n) r := by
  obtain ⟨offset, hj⟩ := hj
  have hn := (List.getElem?_eq_some_iff.1 hi).1
  intro hdry
  rw [code_retarget, List.length_modify] at hdry hn
  rcases hdry.of_withOffset hj with hdry | ⟨-, n', hn', hdry⟩
  · exact h hdry
  · unfold Assembly.jumpOffset at hn'
    obtain rfl : n' = n := by omega
    rw [code_retarget] at hi
    have := hdry.eq_of_write hi target
    omega

end Draft

/-- The code added since starts with an instruction. -/
structure Draft.Starts (d : Draft) (i : Instr) (d' : Draft) : Prop where
  code : d.code <+: d'.code
  first : d'.code[d.code.length]? = some i

section Starts

variable {d d1 d2 : Draft} {i : Instr}

theorem Draft.starts_push (d : Draft) (i : Instr) : d.Starts i (d.push i) := by
  constructor <;> simp

theorem Draft.starts_pushAll (d : Draft) (i : Instr) (is : List Instr) :
    d.Starts i (d.pushAll (i :: is)) := by
  constructor <;> simp

theorem Draft.Starts.push (h : d.Starts i d1) (j : Instr) : d.Starts i (d1.push j) where
  code := h.code.trans (by simp)
  first := getElem?_of_extends (by simp) h.first

theorem Draft.Starts.take (h : d.Starts i d1) (b : Bank) (n : Nat) : d.Starts i (d1.take b n) where
  __ := h

theorem Grows.fills (h : Grows d clashes d1) (hstarts : d1.Starts i d2)
    (target : i.target? = some r) : d.Fills d2 r :=
  (Draft.fills_of_write hstarts.first target).behind h hstarts.code

theorem Grows.fills_push (h : Grows d clashes d1) (target : i.target? = some r) :
    d.Fills (d1.push i) r :=
  h.fills (d1.starts_push i) target

end Starts

/-- Code was added to a draft, and the registers `held` are in use besides those that were. -/
structure Work (d : Draft) (held : Set Register) (e : Effect) (d' : Draft) : Prop
    extends Grows d e.clashes d' where
  surroundings : d'.surroundings = d.surroundings
  live : ∀ r, r ∈ d'.live ↔ r ∈ d.live ∨ r ∈ held
  fresh : ∀ r ∈ held, r ∉ d.live
  spares : e.banked = true → ∀ i ∈ d.since d', d.Spares e.writes i
  writes : ∀ v ∈ e.writes, ∃ i ∈ d.since d', d.Writes v i

namespace Work

variable {d d1 d2 : Draft} {held held' : Set Register} {e e' : Effect}

theorem refl (d : Draft) : Work d ∅ {} d where
  toGrows := .refl d
  surroundings := rfl
  live := by simp
  fresh := by simp
  spares := by simp [Draft.since]
  writes := by simp

theorem trans (h : Work d held e d1) (h' : Work d1 held' e' d2) :
    Work d (held ∪ held') (e ++ e') d2 where
  toGrows := h.toGrows.trans h'.toGrows
  surroundings := h'.surroundings.trans h.surroundings
  live r := by
    rw [h'.live, h.live]
    simp [or_assoc]
  fresh r hr := by
    rcases hr with hr | hr
    · exact h.fresh r hr
    · exact fun hl => h'.fresh r hr ((h.live r).2 (.inl hl))
  spares hb i hi r hr hl := by
    simp only [Effect.banked_append, Bool.and_eq_true] at hb
    rw [Draft.since_trans h.code h'.code] at hi
    rcases List.mem_append.1 hi with hi | hi
    · obtain ⟨v, hv, hhome⟩ := h.spares hb.1 i hi r hr hl
      exact ⟨v, List.mem_append_left _ hv, hhome⟩
    · obtain ⟨v, hv, hhome⟩ := h'.spares hb.2 i hi r hr ((h.live r).2 (.inl hl))
      exact ⟨v, List.mem_append_right _ hv, (Draft.home_iff h.surroundings).1 hhome⟩
  writes v hv := by
    rw [Draft.since_trans h.code h'.code]
    rcases List.mem_append.1 hv with hv | hv
    · obtain ⟨i, hi, hw⟩ := h.writes v hv
      exact ⟨i, List.mem_append_left _ hi, hw⟩
    · obtain ⟨i, hi, r, hr, hhome⟩ := h'.writes v hv
      exact ⟨i, List.mem_append_right _ hi, r, hr, (Draft.home_iff h.surroundings).1 hhome⟩

theorem cast (h : Work d held e d1) (hheld : held = held') (hb : e'.banked → e.banked)
    (hw : e'.writes = e.writes) (hc : e'.clashes = e.clashes) : Work d held' e' d1 where
  __ := h
  live := hheld ▸ h.live
  fresh := hheld ▸ h.fresh
  spares hb' := hw ▸ h.spares (hb hb')
  writes := hw ▸ h.writes
  fits := hc ▸ h.fits

/-- More instructions. What they write was not in use or belongs to variables. -/
theorem block (h : Work d held e d1) (is : List Instr) {k : Bool}
    (within : ∀ i ∈ is, i.Within d1.pools)
    (spares : k = true → ∀ i ∈ is, ∀ r, i.target? = some r → r ∈ held ∨ ∃ v ∈ w, d.Home v r)
    (writes : ∀ v ∈ w, ∃ i ∈ is, d.Writes v i)
    (closed : Closed (d.since d1) → Closed (d.since d1 ++ is)) :
    Work d held (e ++ ⟨k, w, !is.all Instr.fits⟩) (d1.pushAll is) := by
  have hcode : d1.code <+: (d1.pushAll is).code := by simp
  have hsince : d.since (d1.pushAll is) = d.since d1 ++ is := by
    rw [Draft.since_trans h.code hcode, Draft.since_of_eq (Draft.code_pushAll d1)]
  exact { h with
    code := h.code.trans hcode
    surroundings := by simp [h.surroundings]
    pools := by simpa using h.pools
    live := by simpa using h.live
    within := fun i hi => by
      rw [Draft.pools_pushAll]
      rcases List.mem_append.1 (hsince ▸ hi) with hi | hi
      · exact h.within i hi
      · exact within i hi
    spares := fun hb i hi r hr hl => by
      simp only [Effect.banked_append, Bool.and_eq_true] at hb
      rcases List.mem_append.1 (hsince ▸ hi) with hi | hi
      · obtain ⟨v, hv, hhome⟩ := h.spares hb.1 i hi r hr hl
        exact ⟨v, List.mem_append_left _ hv, hhome⟩
      · rcases spares hb.2 i hi r hr with hheld | ⟨v, hv, hhome⟩
        · exact absurd hl (h.fresh r hheld)
        · exact ⟨v, List.mem_append_right _ hv, hhome⟩
    writes := fun v hv => by
      rw [hsince]
      rcases List.mem_append.1 hv with hv | hv
      · obtain ⟨i, hi, hw⟩ := h.writes v hv
        exact ⟨i, List.mem_append_left _ hi, hw⟩
      · obtain ⟨i, hi, hw⟩ := writes v hv
        exact ⟨i, List.mem_append_right _ hi, hw⟩
    fits := by
      simp only [hsince, List.mem_append, or_imp, forall_and, h.fits, Effect.clashes_append,
        Bool.or_eq_false_iff, Bool.not_eq_false', List.all_eq_true]
    closed := hsince ▸ closed h.closed }

theorem push (h : Work d held e d1) {k : Bool} (within : i.Within d1.pools)
    (spares : k = true → ∀ r, i.target? = some r → r ∈ held ∨ ∃ v ∈ w, d.Home v r)
    (writes : ∀ v ∈ w, d.Writes v i) (flows : flowing [i] = true) :
    Work d held (e ++ ⟨k, w, !i.fits⟩) (d1.push i) := by
  simpa using h.block [i] (w := w) (k := k) (by simpa using within) (by simpa using spares)
    (by simpa using writes) fun hc => hc.append flows

/-- More instructions, which can read their operands and write only what was not in use. -/
theorem emitAll (h : Work d held e d1) (is : List Instr) (fits : ∀ i ∈ is, i.fits = true)
    (within : ∀ i ∈ is, i.Within d1.pools)
    (spares : ∀ i ∈ is, ∀ r, i.target? = some r → r ∈ held)
    (flows : flowing is = true) : Work d held e (d1.pushAll is) := by
  have hw := h.block is (w := []) (k := true) within (fun _ i hi r hr => .inl (spares i hi r hr))
    (by simp) fun hc => hc.append flows
  exact hw.cast rfl (by simp) (by simp) (by simp [List.all_eq_true.2 fits])

theorem emit (h : Work d held e d1) (fits : i.fits = true) (within : i.Within d1.pools)
    (spares : ∀ r, i.target? = some r → r ∈ held) (flows : flowing [i] = true) :
    Work d held e (d1.push i) :=
  h.emitAll [i] (by simpa using fits) (by simpa using within) (by simpa using spares) flows

theorem more (h : Work d held e d1) (code : d2.code = d1.code)
    (surroundings : d2.surroundings = d1.surroundings) (pools : Pools.Grow d1.pools d2.pools)
    (live : d2.live = d1.live) : Work d held e d2 := by
  have hsince : d.since d2 = d.since d1 := by rw [Draft.since, code, Draft.since]
  exact { h with
    code := code ▸ h.code
    surroundings := surroundings.trans h.surroundings
    pools := h.pools.trans pools
    live := live ▸ h.live
    within := hsince ▸ fun i hi => (h.within i hi).grow pools
    spares := hsince ▸ h.spares
    writes := hsince ▸ h.writes
    fits := hsince ▸ h.fits
    closed := hsince ▸ h.closed }

theorem store (h : Work d held e d1) (entry : Entry) : Work d held e (d1.store entry) :=
  h.more rfl rfl (d1.grow_store entry) rfl

theorem withNames (h : Work d held e d1) (names : Array String) :
    Work d held e (d1.withNames names) :=
  h.more rfl rfl (.refl _) rfl

theorem take (h : Work d held e d1) (offered : d1.Offers b n) :
    Work d (held ∪ {(b, n)}) e (d1.take b n) where
  __ := h
  live r := by
    rw [Draft.mem_live_take offered.lt, h.live, Set.mem_union, Set.mem_singleton_iff, or_assoc]
  fresh r hr := by
    rcases hr with hr | rfl
    · exact h.fresh r hr
    · exact fun hl => offered.not_live ((h.live _).2 (.inl hl))

theorem drop (h : Work d held e d1) (hp : ∀ r ∈ p.owned, r ∉ d.live) :
    Work d (held \ p.owned) e (d1.drop p) := by
  have hsince : d.since (d1.drop p) = d.since d1 := by simp [Draft.since]
  exact {
    code := by simpa using h.code
    surroundings := by simp [h.surroundings]
    pools := by simpa using h.pools
    live := fun r => by
      have := hp r
      rw [Draft.live_drop, Set.mem_sdiff, h.live, Set.mem_sdiff]
      tauto
    fresh := fun r hr => h.fresh r hr.1
    within := by simpa [hsince] using h.within
    spares := hsince ▸ h.spares
    writes := hsince ▸ h.writes
    fits := hsince ▸ h.fits
    closed := hsince ▸ h.closed }

theorem patch (h : Work d held e d1) (hj : d1.JumpAt k) (hk : d.code.length ≤ k)
    (hlow : d.code.length ≤ n) (hn : n ≤ d1.code.length)
    (hfits : fitsOffset (Assembly.jumpOffset k n) = true) : Work d held e (d1.retarget k n) := by
  obtain ⟨offset, hj'⟩ := hj.since h.code hk
  obtain ⟨-, hsince⟩ := Draft.since_retarget (n := n) h.code hk
  exact { h with
    toGrows := h.toGrows.patch hj hk hlow hn hfits
    spares := fun hb => hsince ▸ (Draft.forall_mem_modify hj' (by exact Iff.rfl)).2 (h.spares hb)
    writes := fun v hv =>
      hsince ▸ (Draft.exists_mem_modify hj' (by exact Iff.rfl)).2 (h.writes v hv) }

end Work

/-! ## Drafts that fit a context -/

/-- A place is the left side of an assignment. -/
structure Draft.IsTarget (d : Draft) (target : Option LocalId × Ty) (place : Place) : Prop where
  register : place.isConstant = false
  plain : place.isFinal = false
  isVariable : place.isVariable = target.1.isSome
  ofVariable : ∀ v, target.1 = some v →
    ∃ b, place.bank? = some b ∧ target.2.bank? = some b ∧ d.Home v (b, place.number)
  inMemory : target.1 = none →
    place.bank? = some .pointer ∧ (.pointer, place.number) ∈ d.live

/-- Variables live in registers of their own, apart from those that the function was entered
with, and the innermost assignment is the one that the context knows. -/
structure Sound (c : Context) (d : Draft) : Prop where
  home : ∀ v place, d.homes[v]? = some (some place) →
    ∃ b n, place = .fixed (some b) n ∧ (c.types v).bank? = some b ∧ (b, n) ∈ d.live
  apart : ∀ v v' r, d.Home v r → d.Home v' r → v = v'
  implicit : ∀ n < c.kind.implicitArgs,
    (.pointer, n) ∈ d.live ∧ ∀ v, ¬ d.Home v (.pointer, n)
  target : ∀ target, c.target = some target →
    ∃ place rest, d.assigned = place :: rest ∧ d.IsTarget target place

theorem implicitArgs_pos {kind : FunctionKind} (h : kind ≠ .static) : 0 < kind.implicitArgs := by
  cases kind
  case static => exact absurd rfl h
  all_goals decide

namespace Sound

variable {c : Context} {d d' : Draft}

theorem home_live (h : Sound c d) (hr : d.Home v r) : r ∈ d.live := by
  obtain ⟨b', m⟩ := r
  obtain ⟨place, hplace, hbank, hnumber⟩ := hr
  obtain ⟨b, n, rfl, -, hlive⟩ := h.home v place hplace
  cases hbank
  cases hnumber
  exact hlive

/-- Only the surroundings and the registers in use matter, and more of these may be in use. -/
theorem mono (h : Sound c d) (hs : d'.surroundings = d.surroundings)
    (hl : ∀ r ∈ d.live, r ∈ d'.live) : Sound c d' where
  home v place hplace := by
    rw [Draft.homes_eq hs] at hplace
    obtain ⟨b, n, hfixed, hty, hlive⟩ := h.home v place hplace
    exact ⟨b, n, hfixed, hty, hl _ hlive⟩
  apart v v' r hr hr' :=
    h.apart v v' r ((Draft.home_iff hs).1 hr) ((Draft.home_iff hs).1 hr')
  implicit n hn := by
    obtain ⟨hlive, hhome⟩ := h.implicit n hn
    exact ⟨hl _ hlive, fun v hv => hhome v ((Draft.home_iff hs).1 hv)⟩
  target target htarget := by
    obtain ⟨place, rest, hassigned, hplace⟩ := h.target target htarget
    refine ⟨place, rest, (Draft.assigned_eq hs).trans hassigned, hplace.register, hplace.plain,
      hplace.isVariable, fun v hv => ?_, fun hnone => ?_⟩
    · obtain ⟨b, hb, hty, hhome⟩ := hplace.ofVariable v hv
      exact ⟨b, hb, hty, (Draft.home_iff hs).2 hhome⟩
    · exact ⟨(hplace.inMemory hnone).1, hl _ (hplace.inMemory hnone).2⟩

variable {e : Effect}

theorem work (h : Sound c d) (hw : Work d held e d') : Sound c d' :=
  h.mono hw.surroundings fun r hr => (hw.live r).2 (.inl hr)

end Sound

/-! ## Values and places -/

/-- What is known of the code of a value. -/
structure Footprint where
  bank? : Option Bank
  /-- Whether there is no value. -/
  isVoid : Bool := false
  isPooled : Bool := false
  /-- The variable in whose register the value is left. -/
  holder? : Option LocalId := none
  /-- Whether the value is the object that the code runs for, in its register. -/
  isSelf : Bool := false
  effect : Effect

/-- What is known of the code of a settled tree. -/
def Expr.footprint (c : Context) (e : Expr) : Footprint where
  bank? := e.ty.bank?
  isVoid := decide (e.ty = .void)
  isPooled := e.isPooled
  holder? := e.holder? (c.target.bind (·.1))
  isSelf := e.isSelf
  effect := ⟨e.ty.bank?.isSome, e.writes, e.clashes⟩

/-- The code of a value was added to a draft, and the value is at a place. -/
structure Leaves (f : Footprint) (d : Draft) (p : Place) (d' : Draft) : Prop
    extends Work d p.owned f.effect d' where
  bank : p.bank? = f.bank?
  void : f.bank? = none → f.isVoid = true
  pooled : p.isConstant = f.isPooled
  plain : p.isFinal = false ∧ p.isVariable = false
  index : p.isConstant = true → ∀ b, p.bank? = some b → p.number < d'.pools.size b
  holder : ∀ v, f.holder? = some v →
    p.isConstant = false ∧ p.isFixed = true ∧ ∃ b, p.bank? = some b ∧ d.Home v (b, p.number)
  self : f.isSelf = true → p = .fixed (some .pointer) 0
  own : p.isConstant = false → f.holder? = none → f.isSelf = false → p.isFixed = false
  filled : p.isConstant = false → f.holder? = none → f.isSelf = false → ∀ b, p.bank? = some b →
    d.Fills d' (b, p.number)

/-- Lowering a value does what its footprint says, whenever it goes well. -/
def Lowers (t : Target) (c : Context) (x : Lowering Place) (f : Footprint) : Prop :=
  ∀ d p d', Sound c d → Yields t x d p d' → Leaves f d p d'

namespace Leaves

variable {f : Footprint} {d d1 d2 : Draft} {p q : Place}

theorem operand (h : Leaves f d p d1) (hb : f.bank? = some b) :
    p.operand = if f.isPooled then .pool (some b) p.number else .reg (some b) p.number := by
  rw [Place.operand, h.pooled, h.bank, hb]

theorem operand_register (h : Leaves f d p d1) (hb : f.bank? = some b) (hp : f.isPooled = false) :
    p.operand = .reg (some b) p.number := by
  simp [h.operand hb, hp]

theorem banked (h : Leaves f d p d1) (hb : f.bank? = some b) :
    Leaves { f with bank? := some b, isVoid := false } d p d1 :=
  { h with
    bank := h.bank.trans hb
    void := by simp }

theorem operand_within (h : Leaves f d p d1) : p.operand.Within d1.pools := by
  intro b i hi
  unfold Place.operand at hi
  split at hi
  next hc =>
    obtain ⟨hbank, rfl⟩ := Operand.pool.inj hi
    exact h.index hc b hbank
  next => cases hi

/-- Values that are neither pooled nor in the register of a variable leave these alone. -/
theorem apart {c : Context} (hd : Sound c d) (h : Leaves f d p d1)
    (hself : f.isSelf = true → c.kind ≠ .static) (hc : p.isConstant = false)
    (hnone : f.holder? = none) (hb : p.bank? = some b) (v : LocalId) :
    ¬ d.Home v (b, p.number) := by
  intro hhome
  cases hs : f.isSelf with
  | true =>
    obtain rfl := h.self hs
    cases hb
    exact (hd.implicit 0 (implicitArgs_pos (hself hs))).2 v hhome
  | false => exact h.fresh _ (Place.mem_owned hc (h.own hc hnone hs) hb) (hd.home_live hhome)

theorem inUse {c : Context} (hd : Sound c d) (h : Leaves f d p d1)
    (hself : f.isSelf = true → c.kind ≠ .static) (hc : p.isConstant = false)
    (hb : p.bank? = some b) : (b, p.number) ∈ d1.live := by
  rw [h.live]
  cases hs : f.isSelf with
  | true =>
    obtain rfl := h.self hs
    cases hb
    exact .inl (hd.implicit 0 (implicitArgs_pos (hself hs))).1
  | false =>
    cases hv : f.holder? with
    | none => exact .inr (Place.mem_owned hc (h.own hc hv hs) hb)
    | some v =>
      obtain ⟨-, -, b', hb', hhome⟩ := h.holder v hv
      cases hb.symm.trans hb'
      exact .inl (hd.home_live hhome)

/-- A register that may be given up was written for the value. -/
theorem filled_of_own (h : Leaves f d p d1) (hc : p.isConstant = false) (hf : p.isFixed = false)
    (hb : f.bank? = some b) : d.Fills d1 (b, p.number) := by
  apply h.filled hc _ _ b (h.bank.trans hb)
  · cases hv : f.holder? with
    | none => rfl
    | some v => simp [(h.holder v hv).2.1] at hf
  · cases hs : f.isSelf with
    | false => rfl
    | true => simp [h.self hs, Place.fixed] at hf

theorem ofOwned (h : Work d p.owned e d1) {isVoid : Bool} (hb : p.bank? = bank?)
    (hv : bank? = none → isVoid = true) (hc : p.isConstant = false) (hf : p.isFixed = false)
    (plain : p.isFinal = false ∧ p.isVariable = false)
    (filled : ∀ b, bank? = some b → d.Fills d1 (b, p.number)) :
    Leaves { bank? := bank?, isVoid := isVoid, effect := e } d p d1 where
  toWork := h
  bank := hb
  void := hv
  pooled := hc
  plain := plain
  index := by simp [hc]
  holder := by simp
  self := by simp
  own _ _ _ := hf
  filled _ _ _ b hb' := filled b (hb.symm.trans hb')

theorem ofFresh (h : Work d {(b, n)} e d1) (filled : d.Fills d1 (b, n)) :
    Leaves { bank? := some b, effect := e } d (.fresh b n) d1 :=
  ofOwned (by rwa [Place.owned_fresh]) rfl (by simp) rfl rfl ⟨rfl, rfl⟩ (by simpa using filled)

theorem ofHome (h : Work d ∅ e d1) (hc : p.isConstant = false) (hf : p.isFixed = true)
    (plain : p.isFinal = false ∧ p.isVariable = false) (hb : p.bank? = some b)
    (hhome : d.Home v (b, p.number)) :
    Leaves { bank? := some b, holder? := some v, effect := e } d p d1 where
  toWork := by rwa [Place.owned_of_fixed hf]
  bank := hb
  void := by simp
  pooled := hc
  plain := plain
  index := by simp [hc]
  holder v' hv' := by
    cases hv'
    exact ⟨hc, hf, b, hb, hhome⟩
  self := by simp
  own := by simp
  filled := by simp

/-- The value stays where it is while more is done, and is told of from an earlier draft on. -/
theorem rebase {d0 : Draft} (h : Leaves f d p d1) {e0 : Effect} (hbefore : Work d0 held e0 d)
    (hw : Work d0 p.owned e d2) (hpools : Pools.Grow d1.pools d2.pools)
    (hcode : d1.code <+: d2.code) : Leaves { f with effect := e } d0 p d2 where
  __ := h
  toWork := hw
  index hc b hb := (h.index hc b hb).trans_le (hpools.size_le b)
  holder v hv := by
    obtain ⟨hc, hf, b, hb, hhome⟩ := h.holder v hv
    exact ⟨hc, hf, b, hb, (Draft.home_iff hbefore.surroundings).1 hhome⟩
  filled hc hv hs b hb :=
    ((h.filled hc hv hs b hb).later h.toGrows hcode).behind hbefore.toGrows (h.code.trans hcode)

/-- More was done while the value stayed in its register. -/
theorem update (h : Leaves f d p d1) (hp : f.isPooled = false) (hw : Work d p.owned e d2)
    (hcode : d1.code <+: d2.code) : Leaves { f with effect := e } d p d2 :=
  { h with
    toWork := hw
    index := fun hc => by simp [h.pooled.trans hp] at hc
    filled := fun hc hv hs b hb => (h.filled hc hv hs b hb).later h.toGrows hcode }

theorem ofConstant (hw : Work d ∅ {} d1) (hn : n < d1.pools.size b) :
    Leaves { bank? := some b, isPooled := true, effect := {} } d (.constant (some b) n) d1 where
  toWork := by rwa [Place.owned_of_constant rfl]
  bank := rfl
  void := by simp
  pooled := rfl
  plain := ⟨rfl, rfl⟩
  index _ b' hb' := by
    cases hb'
    exact hn
  holder := by simp
  self := by simp
  own h := by simp [Place.constant] at h
  filled h := by simp [Place.constant] at h

theorem ofEntry (d : Draft) (e : Entry) :
    Leaves { bank? := some e.bank, isPooled := true, effect := {} } d
      (.constant (some e.bank) (d.indexOf e)) (d.store e) :=
  ofConstant ((Work.refl d).store e) (d.indexOf_lt e)

theorem toRegister (h : Leaves f d p d1) (hq : Yields t (Lowering.toRegister p) d1 q d2) :
    Leaves { f with isPooled := false } d q d2 := by
  unfold Lowering.toRegister at hq
  split at hq
  next hc =>
    simp only [yields_steps, yields_alloc] at hq
    obtain ⟨_, _, ⟨b, n, hbank, offered, rfl, rfl⟩, -, rfl, rfl⟩ := hq
    have hnone : f.holder? = none := by
      cases hv : f.holder? with
      | none => rfl
      | some v => simp [(h.holder v hv).1] at hc
    have hself : f.isSelf = false := by
      cases hs : f.isSelf with
      | false => rfl
      | true => simp [h.self hs, Place.fixed] at hc
    have hoperand : p.operand = .pool (some b) p.number := by simp [Place.operand, hc, hbank]
    have hlt : p.number < d1.pools.size b := h.index hc b hbank
    have hw := (h.toWork.take offered).emit
      (i := .abx (.lk b) (.reg (some b) n) (.pool (some b) p.number))
      (by simp [Instr.fits]) (by simpa using hlt) (by simp [Instr.target?]) rfl
    rw [Place.owned_of_constant hc, Set.empty_union] at hw
    have hl := ofFresh hw ((h.toWork.take offered).fills_push (by simp [Instr.target?]))
    rw [hoperand, hbank, ← h.bank, hbank, hnone, hself]
    exact { hl with void := by simp }
  next hc =>
    obtain ⟨rfl, rfl⟩ := yields_pure.1 hq
    exact { h with pooled := by simpa using hc }

end Leaves

/-! ## Copies -/

/-- The instruction that writes a value to a register. -/
def copyOf (bank? : Option Bank) (target source : Place) : Instr :=
  if source.isConstant then .abx (.loadConstant bank?) target.operand source.operand
  else .abc (.moveOf bank?) target.operand source.operand (.imm 0)

theorem yields_assign {target source : Place} {u : Unit}
    (h : Yields t (Lowering.assign bank? target source) d u d') :
    d' = d.push (copyOf bank? target source) := by
  unfold Lowering.assign at h
  cases hc : source.isConstant with
  | true =>
    simp only [hc, if_true, yields_emitWide] at h
    simpa [copyOf, hc] using h.2
  | false =>
    simp only [hc, Bool.false_eq_true, if_false, yields_emit] at h
    simpa [copyOf, hc] using h.2

section Copies

variable {b : Bank} {target source : Place}

theorem proceeds_copyOf (bank? : Option Bank) (target source : Place) (rest : Nat) :
    (copyOf bank? target source).proceeds rest = true := by
  unfold copyOf
  split <;> rfl

theorem target?_copyOf (source : Place) (htarget : target.isConstant = false) :
    (copyOf (some b) target source).target? = some (b, target.number) := by
  unfold copyOf
  split <;> simp [Instr.target?, Op.loadConstant, Op.moveOf, Place.operand, Operand.value, htarget]

theorem fits_copyOf (htarget : target.isConstant = false) (hb : target.bank? = bank?)
    (hs : source.bank? = bank?) : (copyOf bank? target source).fits = bank?.isSome := by
  unfold copyOf
  cases bank? <;> split <;> simp_all [Instr.fits, Instr.fitsThree, Op.loadConstant, Op.moveOf,
    Place.operand]

theorem within_copyOf {pools : Pools} (htarget : target.isConstant = false)
    (hs : source.operand.Within pools) : (copyOf bank? target source).Within pools := by
  have : target.operand.Within pools := by simp [Place.operand, htarget]
  unfold copyOf
  split <;> simp [this, hs]

end Copies

namespace Leaves

variable {f : Footprint} {d d1 d2 : Draft} {p q : Place}

/-- A value that may be overwritten is in a register of its own. -/
theorem toScratch (h : Leaves f d p d1) (hq : Yields t (Lowering.toScratch p) d1 q d2) :
    Leaves { bank? := f.bank?, isVoid := f.isVoid, effect := f.effect } d q d2 ∧
      q.isFixed = false := by
  unfold Lowering.toScratch at hq
  split at hq
  next hc =>
    simp only [yields_steps, yields_alloc] at hq
    obtain ⟨_, _, ⟨b, n, hbank, offered, rfl, rfl⟩, _, _, hcopy, rfl, rfl⟩ := hq
    rw [hbank] at hcopy
    rw [yields_assign hcopy]
    have hnone : p.owned = ∅ := by
      rcases Bool.or_eq_true _ _ ▸ hc with hc | hc
      · exact Place.owned_of_constant hc
      · exact Place.owned_of_fixed hc
    have hw := (h.toWork.take offered).emit
      (i := copyOf (some b) (.fresh b n) p)
      (fits_copyOf rfl rfl hbank) (within_copyOf rfl h.operand_within) (by simp [target?_copyOf])
      (by simp [proceeds_copyOf])
    rw [hnone, Set.empty_union] at hw
    rw [← h.bank, hbank]
    exact ⟨{ ofFresh hw (Grows.fills_push (h.toWork.take offered).toGrows (by simp [target?_copyOf]))
      with void := by simp }, rfl⟩
  next hc =>
    obtain ⟨rfl, rfl⟩ := yields_pure.1 hq
    simp only [Bool.or_eq_true, not_or, Bool.not_eq_true] at hc
    exact ⟨ofOwned h.toWork h.bank h.void hc.1 hc.2 h.plain fun _ => h.filled_of_own hc.1 hc.2, hc.2⟩

end Leaves

end ActorScript
