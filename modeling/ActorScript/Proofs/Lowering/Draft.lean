import ActorScript.Proofs.Lowering.Run
import ActorScript.Proofs.RegisterSets
import Mathlib.Data.Set.Insert

/-! # What a draft holds

The registers in use, the constant pools and the code of a draft, and what the steps that
all lowering is made of do to them.
-/

namespace ActorScript

variable {i n : Nat} {p : Place} {d : Draft} {is : List Instr} {b : Bank} {s : Assembler}
  {bank? : Option Bank} {u : Unit} {v : Int32} {α : Type} {name : String} {op : Op}

abbrev Register := Bank × Nat

/-! ## Registers of a bank -/

namespace RegisterPool

theorem isUsed_take (pool : RegisterPool) {reg : Nat} (hreg : reg < 256) :
    (pool.take reg 1).isUsed i = true ↔ pool.isUsed i = true ∨ i = reg := by
  rw [← mem_inUse, ← mem_inUse, ← Finset.mem_singleton, ← Nat.Ico_succ_singleton,
    ← Finset.mem_union, ← inUse_take hreg]

theorem get?_one {pool pool' : RegisterPool} {reg : Nat} (h : pool.get? 1 = some (reg, pool')) :
    reg < 256 ∧ pool.isUsed reg = false ∧ pool' = pool.take reg 1 := by
  have hspec := pool.get?_spec 1
  rw [h] at hspec
  obtain ⟨hleast, rfl⟩ := hspec
  have hfree := Finset.disjoint_left.1 hleast.1.2 (Finset.mem_Ico.2 ⟨le_rfl, Nat.lt_succ_self reg⟩)
  exact ⟨hleast.1.1, by simpa using hfree, rfl⟩

theorem isUsed_release (pool : RegisterPool) (reg i : Nat) :
    (pool.release reg 1).2.isUsed i = true ↔ pool.isUsed i = true ∧ i ≠ reg := by
  rw [← mem_inUse, inUse_release, Nat.Ico_succ_singleton]
  simp

end RegisterPool

theorem modify_behind {α : Type} (head tail : List α) (j : Nat) (f : α → α) :
    (head ++ tail).modify (head.length + j) f = head ++ tail.modify j f := by
  induction head with
  | nil => simp
  | cons a head ih =>
    rw [List.length_cons, Nat.add_right_comm, List.cons_append, List.modify_succ_cons, ih,
      List.cons_append]

/-! ## Views of a draft -/

structure Pools where
  ints : ConstantPool Int32
  floats : ConstantPool UInt64
  strings : ConstantPool String
  addresses : ConstantPool Pooled

namespace Pools

def size (p : Pools) : Bank → Nat
  | .int => p.ints.entries.size
  | .float => p.floats.entries.size
  | .string => p.strings.entries.size
  | .pointer => p.addresses.entries.size

/-- Entries are only added, behind those that are there. -/
structure Grow (p q : Pools) : Prop where
  ints : p.ints.entries.toList <+: q.ints.entries.toList
  floats : p.floats.entries.toList <+: q.floats.entries.toList
  strings : p.strings.entries.toList <+: q.strings.entries.toList
  addresses : p.addresses.entries.toList <+: q.addresses.entries.toList

theorem Grow.refl (p : Pools) : Grow p p :=
  ⟨List.prefix_rfl, List.prefix_rfl, List.prefix_rfl, List.prefix_rfl⟩

theorem Grow.trans {p q r : Pools} (h : Grow p q) (h' : Grow q r) : Grow p r :=
  ⟨h.ints.trans h'.ints, h.floats.trans h'.floats, h.strings.trans h'.strings,
    h.addresses.trans h'.addresses⟩

theorem Grow.size_le {p q : Pools} (h : Grow p q) (b : Bank) : p.size b ≤ q.size b := by
  cases b
  · exact h.ints.length_le
  · exact h.floats.length_le
  · exact h.strings.length_le
  · exact h.addresses.length_le

end Pools

namespace Draft

def code (d : Draft) : List Instr :=
  d.assembler.code.toList

def live (d : Draft) : Set Register :=
  { r | (d.assembler.pools.get r.1).isUsed r.2 = true }

def pools (d : Draft) : Pools :=
  ⟨d.assembler.ints, d.assembler.floats, d.assembler.strings, d.assembler.addresses⟩

/-- What belongs to the statements and assignments around. -/
def surroundings (d : Draft) : Array (Option Place) × List LoopJumps × List Place :=
  (d.homes, d.loops, d.assigned)

variable {r : Register}

theorem live_lt (h : r ∈ d.live) : r.2 < 256 :=
  RegisterPool.isUsed_lt h

/-! ### Changes of a draft -/

def push (d : Draft) (i : Instr) : Draft :=
  { d with assembler := { d.assembler with code := d.assembler.code.push i } }

def withRegisters (d : Draft) (b : Bank) (pool : RegisterPool) : Draft :=
  { d with assembler := { d.assembler with pools := d.assembler.pools.set b pool } }

def take (d : Draft) (b : Bank) (n : Nat) : Draft :=
  d.withRegisters b ((d.assembler.pools.get b).take n 1)

def give (d : Draft) (b : Bank) (n : Nat) : Draft :=
  d.withRegisters b ((d.assembler.pools.get b).release n 1).2

def retarget (d : Draft) (source target : Nat) : Draft :=
  { d with assembler := { d.assembler with
    code := d.assembler.code.modify source (·.withOffset (Assembly.jumpOffset source target)) } }

def withPools (d : Draft) (p : Pools) : Draft :=
  { d with assembler := { d.assembler with
    ints := p.ints, floats := p.floats, strings := p.strings, addresses := p.addresses } }

def withNames (d : Draft) (names : Array String) : Draft :=
  { d with assembler := { d.assembler with names } }

section Changes

variable (d : Draft) (i : Instr) (b : Bank) (n source target : Nat) (p : Pools)
  (names : Array String)

@[simp] theorem code_push : (d.push i).code = d.code ++ [i] := by simp [code, push]
@[simp] theorem live_push : (d.push i).live = d.live := rfl
@[simp] theorem pools_push : (d.push i).pools = d.pools := rfl
@[simp] theorem surroundings_push : (d.push i).surroundings = d.surroundings := rfl

@[simp] theorem code_take : (d.take b n).code = d.code := rfl
@[simp] theorem pools_take : (d.take b n).pools = d.pools := rfl
@[simp] theorem surroundings_take : (d.take b n).surroundings = d.surroundings := rfl

@[simp] theorem code_give : (d.give b n).code = d.code := rfl
@[simp] theorem pools_give : (d.give b n).pools = d.pools := rfl
@[simp] theorem surroundings_give : (d.give b n).surroundings = d.surroundings := rfl

@[simp] theorem live_retarget : (d.retarget source target).live = d.live := rfl
@[simp] theorem pools_retarget : (d.retarget source target).pools = d.pools := rfl
@[simp] theorem surroundings_retarget :
    (d.retarget source target).surroundings = d.surroundings := rfl

@[simp] theorem code_withPools : (d.withPools p).code = d.code := rfl
@[simp] theorem live_withPools : (d.withPools p).live = d.live := rfl
@[simp] theorem pools_withPools : (d.withPools p).pools = p := rfl
@[simp] theorem surroundings_withPools : (d.withPools p).surroundings = d.surroundings := rfl

@[simp] theorem code_withNames : (d.withNames names).code = d.code := rfl
@[simp] theorem live_withNames : (d.withNames names).live = d.live := rfl
@[simp] theorem pools_withNames : (d.withNames names).pools = d.pools := rfl
@[simp] theorem surroundings_withNames : (d.withNames names).surroundings = d.surroundings := rfl

@[simp] theorem length_code_retarget :
    (d.retarget source target).code.length = d.code.length := by
  simp [code, retarget]

def pushAll (d : Draft) (is : List Instr) : Draft :=
  is.foldl push d

@[simp] theorem pushAll_nil : d.pushAll [] = d := rfl
@[simp] theorem pushAll_cons : d.pushAll (i :: is) = (d.push i).pushAll is := rfl

theorem pushAll_eq : d.pushAll is =
    { d with assembler := { d.assembler with code := d.assembler.code ++ is } } := by
  induction is generalizing d with
  | nil => simp
  | cons i is ih => simp [ih, push]

@[simp] theorem code_pushAll : (d.pushAll is).code = d.code ++ is := by
  simp [pushAll_eq, code]

@[simp] theorem live_pushAll : (d.pushAll is).live = d.live := by
  rw [pushAll_eq]
  rfl

@[simp] theorem pools_pushAll : (d.pushAll is).pools = d.pools := by
  rw [pushAll_eq]
  rfl

@[simp] theorem surroundings_pushAll : (d.pushAll is).surroundings = d.surroundings := by
  rw [pushAll_eq]
  rfl

theorem code_retarget : (d.retarget source target).code =
    d.code.modify source (·.withOffset (Assembly.jumpOffset source target)) := by
  simp [code, retarget]

theorem retarget_pushAll : (d.pushAll is).retarget (d.code.length + n) target =
    d.pushAll (is.modify n (·.withOffset (Assembly.jumpOffset (d.code.length + n) target))) := by
  have hcode (f : Instr → Instr) : (d.assembler.code ++ is).modify (d.code.length + n) f =
      d.assembler.code ++ is.modify n f := by
    rw [← Array.toList_inj, Array.toList_modify, Array.toList_appendList, Array.toList_appendList]
    exact modify_behind ..
  simp only [pushAll_eq, retarget, hcode]

end Changes

theorem mem_live_take (hn : n < 256) : r ∈ (d.take b n).live ↔ r ∈ d.live ∨ r = (b, n) := by
  obtain ⟨b', m⟩ := r
  have hused := (d.assembler.pools.get b).isUsed_take (i := m) hn
  cases b <;> cases b' <;> simp_all [live, take, withRegisters, Banks.get, Banks.set]

theorem mem_live_give : r ∈ (d.give b n).live ↔ r ∈ d.live ∧ r ≠ (b, n) := by
  obtain ⟨b', m⟩ := r
  have hused := (d.assembler.pools.get b).isUsed_release n m
  cases b <;> cases b' <;> simp_all [live, give, withRegisters, Banks.get, Banks.set]

end Draft

/-! ## Registers of places -/

namespace Place

/-- The register that belongs to a value alone. -/
def owned (p : Place) : Set Register :=
  { r | p.isOwned = true ∧ p.bank? = some r.1 ∧ p.number = r.2 }

@[simp] theorem operand_fresh (bank? : Option Bank) (n : Nat) :
    operand { number := n, bank? := bank? } = .reg bank? n := rfl

@[simp] theorem operand_fixed (bank? : Option Bank) (n : Nat) :
    operand (.fixed bank? n) = .reg bank? n := rfl

@[simp] theorem operand_constant (bank? : Option Bank) (n : Nat) :
    operand (.constant bank? n) = .pool bank? n := rfl

/-- A register that nothing else uses. -/
abbrev fresh (b : Bank) (n : Nat) : Place :=
  { number := n, bank? := some b }

theorem owned_fresh (b : Bank) (n : Nat) :
    owned (.fresh b n) = {(b, n)} := by
  ext ⟨b', m⟩
  simp only [owned, isOwned, Set.mem_ofPred_eq, Set.mem_singleton_iff, Prod.ext_iff]
  grind

theorem owned_of_own (hc : p.isConstant = false) (hf : p.isFixed = false) (hb : p.bank? = some b) :
    p.owned = {(b, p.number)} := by
  ext ⟨b', m⟩
  simp only [owned, isOwned, Set.mem_ofPred_eq, Set.mem_singleton_iff, Prod.ext_iff, hc, hf, hb]
  grind

theorem mem_owned (hc : p.isConstant = false) (hf : p.isFixed = false) (hb : p.bank? = some b) :
    (b, p.number) ∈ p.owned := by
  simp [owned, isOwned, hc, hf, hb]

theorem owned_of_constant (h : p.isConstant = true) : p.owned = ∅ := by
  ext r
  simp [owned, isOwned, h]

theorem owned_of_fixed (h : p.isFixed = true) : p.owned = ∅ := by
  ext r
  simp [owned, isOwned, h]

theorem owned_of_bankless (h : p.bank? = none) : p.owned = ∅ := by
  ext r
  simp [owned, h]

end Place

namespace Draft

/-- The register that the next value of a bank gets. -/
def Offers (d : Draft) (b : Bank) (n : Nat) : Prop :=
  ∃ pool, (d.assembler.pools.get b).get? 1 = some (n, pool)

theorem Offers.lt {d : Draft} (h : d.Offers b n) : n < 256 :=
  (RegisterPool.get?_one h.choose_spec).1

theorem Offers.not_live {d : Draft} (h : d.Offers b n) : (b, n) ∉ d.live := by
  simp [live, (RegisterPool.get?_one h.choose_spec).2.1]

def Holds (d : Draft) (p : Place) : Prop :=
  p.isOwned = true → ∀ b, p.bank? = some b →
    ((d.assembler.pools.get b).release p.number 1).1 = true

/-- Gives up the register of a value, if the value has one of its own. -/
def drop (d : Draft) (p : Place) : Draft :=
  match p.isOwned, p.bank? with
  | true, some b => d.give b p.number
  | _, _ => d

variable (d : Draft) (p : Place)

@[simp] theorem code_drop : (d.drop p).code = d.code := by
  unfold drop
  split <;> simp

@[simp] theorem pools_drop : (d.drop p).pools = d.pools := by
  unfold drop
  split <;> simp

@[simp] theorem surroundings_drop : (d.drop p).surroundings = d.surroundings := by
  unfold drop
  split <;> simp

theorem drop_push (i : Instr) : (d.push i).drop p = (d.drop p).push i := by
  unfold drop
  split <;> rfl

theorem drop_pushAll (is : List Instr) : (d.pushAll is).drop p = (d.drop p).pushAll is := by
  induction is generalizing d with
  | nil => rfl
  | cons i rest ih => rw [pushAll_cons, pushAll_cons, ih, drop_push]

@[simp] theorem live_drop : (d.drop p).live = d.live \ p.owned := by
  ext r
  unfold drop
  split
  next b howned hbank =>
    rw [mem_live_give]
    simp [Place.owned, howned, hbank, Prod.ext_iff, eq_comm]
  next hnot =>
    have : r ∉ p.owned := by
      rintro ⟨howned, hbank, -⟩
      exact hnot r.1 howned hbank
    simp [this]

end Draft

/-! ## Steps on registers -/

namespace Assembly

theorem alloc_run (bank? : Option Bank) (s : Assembler) :
    (alloc bank?).run s = match bank?.bind fun b => ((s.pools.get b).get? 1).map (b, ·) with
      | some (b, n, pool) => (n, { s with pools := s.pools.set b pool })
      | none => (0, { s with faults := s.faults.push (.registerOverflow bank?) }) := by
  change StateT.run (match bank?.bind fun b => ((s.pools.get b).get? 1).map (b, ·) with
    | some (b, n, pool) => do
        set { s with pools := s.pools.set b pool }
        return n
    | none => do
        note (.registerOverflow bank?)
        return 0) s = _
  split <;> rfl

theorem release_run (b : Bank) (n : Nat) (s : Assembler) :
    (release (some b) n 1).run s =
      ((), { s with
        pools := s.pools.set b ((s.pools.get b).release n 1).2
        faults := if ((s.pools.get b).release n 1).1 then s.faults
          else s.faults.push (.doubleFree b n) }) := by
  change StateT.run (if ((s.pools.get b).release n 1).1 = true then pure ()
    else note (.doubleFree b n))
      { s with pools := s.pools.set b ((s.pools.get b).release n 1).2 } = _
  split <;> rfl

theorem does_alloc {s' : Assembler} :
    Does (alloc bank?) s n s' ↔
      ∃ b pool, bank? = some b ∧ (s.pools.get b).get? 1 = some (n, pool) ∧
        s' = { s with pools := s.pools.set b pool } := by
  constructor
  · rintro ⟨run, faultless⟩
    rw [alloc_run] at run
    split at run
    next b reg pool found =>
      cases run
      obtain ⟨b', hb, hfound⟩ := Option.bind_eq_some_iff.1 found
      obtain ⟨_, hpool, heq⟩ := Option.map_eq_some_iff.1 hfound
      cases heq
      exact ⟨_, _, hb, hpool, rfl⟩
    next =>
      cases run
      simpa using congrArg Array.size faultless
  · rintro ⟨b, pool, rfl, hpool, rfl⟩
    refine ⟨?_, rfl⟩
    rw [alloc_run]
    simp [hpool]

theorem does_release {s' : Assembler} :
    Does (release (some b) n 1) s u s' ↔
      ((s.pools.get b).release n 1).1 = true ∧
        s' = { s with pools := s.pools.set b ((s.pools.get b).release n 1).2 } := by
  constructor
  · rintro ⟨run, faultless⟩
    rw [release_run] at run
    cases run
    dsimp only at faultless
    split at faultless
    next used => exact ⟨used, by simp [used]⟩
    next => simpa using congrArg Array.size faultless
  · rintro ⟨used, rfl⟩
    refine ⟨?_, rfl⟩
    rw [release_run]
    simp [used]

end Assembly

/-! ## Constants -/

inductive Entry where
  | int (value : Int32)
  | float (bits : UInt64)
  | string (value : String)
  | address (value : Pooled)

def Entry.bank : Entry → Bank
  | int _ => .int
  | float _ => .float
  | string _ => .string
  | address _ => .pointer

section

@[simp] theorem Entry.bank_int : (int v).bank = .int := rfl
@[simp] theorem Entry.bank_float {v : UInt64} : (float v).bank = .float := rfl
@[simp] theorem Entry.bank_string {v : String} : (string v).bank = .string := rfl
@[simp] theorem Entry.bank_address {v : Pooled} : (address v).bank = .pointer := rfl

end

namespace ConstantPool

variable [DecidableEq α] [Rowed α] (pool : ConstantPool α) (value : α)

/-- A value is found at its position, or it is put behind the entries that are there. -/
theorem intern_cases :
    (∃ k, pool.entries[k]? = some value ∧ pool.intern value = (k % 65536, pool)) ∨
    (value ∉ pool.entries.toList ∧ (pool.intern value).1 = pool.entries.size % 65536 ∧
      (pool.intern value).2.entries = pool.entries.push value) := by
  unfold intern
  split
  next position found =>
    rw [pool.mirrors, Option.map_eq_some_iff] at found
    obtain ⟨k, hk, rfl⟩ := found
    obtain ⟨hlt, hsame, -⟩ := Array.findIdx?_eq_some_iff_getElem.1 hk
    exact .inl ⟨k, by simpa [hlt] using hsame, rfl⟩
  next missing =>
    rw [pool.mirrors, Option.map_eq_none_iff, Array.findIdx?_eq_none_iff] at missing
    exact .inr ⟨fun hmem => by simpa using missing value (by simpa using hmem), rfl, rfl⟩

variable {pool value} in
theorem intern_of_notMem (h : value ∉ pool.entries.toList) :
    (pool.intern value).1 = pool.entries.size % 65536 ∧
      (pool.intern value).2.entries = pool.entries.push value := by
  refine ((pool.intern_cases value).resolve_left ?_).2
  rintro ⟨k, hfound, -⟩
  exact h (Array.mem_toList_iff.2 (Array.mem_of_getElem? hfound))

/-- The position found holds the value, and is answered in sixteen bits. -/
theorem intern_found :
    ∃ k, (pool.intern value).1 = k % 65536 ∧ (pool.intern value).2.entries[k]? = some value := by
  obtain ⟨k, hk, heq⟩ | ⟨-, hindex, hentries⟩ := pool.intern_cases value
  · exact ⟨k, by rw [heq], by rw [heq, hk]⟩
  · exact ⟨pool.entries.size, hindex, by simp [hentries]⟩

theorem prefix_intern : pool.entries.toList <+: (pool.intern value).2.entries.toList := by
  obtain ⟨k, -, heq⟩ | ⟨-, -, hentries⟩ := pool.intern_cases value
  · rw [heq]
  · simp [hentries]

theorem intern_lt : (pool.intern value).1 < (pool.intern value).2.entries.size := by
  obtain ⟨k, hindex, hfound⟩ := pool.intern_found value
  rw [hindex]
  exact lt_of_le_of_lt (Nat.mod_le _ _) (Array.getElem?_eq_some_iff.1 hfound).1

end ConstantPool

namespace Pools

/-- The position of an entry, and the pools with it. -/
def intern (p : Pools) : Entry → Nat × Pools
  | .int value =>
      let r := p.ints.intern value
      (r.1, { p with ints := r.2 })
  | .float bits =>
      let r := p.floats.intern bits
      (r.1, { p with floats := r.2 })
  | .string value =>
      let r := p.strings.intern value
      (r.1, { p with strings := r.2 })
  | .address value =>
      let r := p.addresses.intern value
      (r.1, { p with addresses := r.2 })

theorem grow_intern (p : Pools) (e : Entry) : Grow p (p.intern e).2 := by
  cases e with
  | int v => exact { Grow.refl p with ints := p.ints.prefix_intern v }
  | float v => exact { Grow.refl p with floats := p.floats.prefix_intern v }
  | string v => exact { Grow.refl p with strings := p.strings.prefix_intern v }
  | address v => exact { Grow.refl p with addresses := p.addresses.prefix_intern v }

theorem intern_lt (p : Pools) (e : Entry) : (p.intern e).1 < (p.intern e).2.size e.bank := by
  cases e with
  | int v => exact p.ints.intern_lt v
  | float v => exact p.floats.intern_lt v
  | string v => exact p.strings.intern_lt v
  | address v => exact p.addresses.intern_lt v

end Pools

namespace Draft

def indexOf (d : Draft) (e : Entry) : Nat :=
  (d.pools.intern e).1

def store (d : Draft) (e : Entry) : Draft :=
  d.withPools (d.pools.intern e).2

@[simp] theorem code_store (d : Draft) (e : Entry) : (d.store e).code = d.code := rfl
@[simp] theorem live_store (d : Draft) (e : Entry) : (d.store e).live = d.live := rfl
@[simp] theorem surroundings_store (d : Draft) (e : Entry) :
    (d.store e).surroundings = d.surroundings := rfl

theorem grow_store (d : Draft) (e : Entry) : Pools.Grow d.pools (d.store e).pools :=
  d.pools.grow_intern e

theorem indexOf_lt (d : Draft) (e : Entry) : d.indexOf e < (d.store e).pools.size e.bank :=
  d.pools.intern_lt e

end Draft

/-! ## Steps of the lowering on drafts -/

section Steps

variable {t : Target} {d d' : Draft}

theorem yields_modify_assembler {x : Assembly α} {a b : α} (run : x.run d.assembler = (b, s))
    (faultless : s.faults = d.assembler.faults) :
    Yields t (liftM x) d a d' ↔ a = b ∧ d' = { d with assembler := s } := by
  rw [yields_lift]
  constructor
  · rintro ⟨s', ⟨run', -⟩, rfl⟩
    cases run.symm.trans run'
    exact ⟨rfl, rfl⟩
  · rintro ⟨rfl, rfl⟩
    exact ⟨s, ⟨run, faultless⟩, rfl⟩

@[simp]
theorem yields_intConstant :
    Yields t (liftM (Assembly.intConstant v)) d i d' ↔
      i = d.indexOf (.int v) ∧ d' = d.store (.int v) :=
  yields_modify_assembler rfl rfl

@[simp]
theorem yields_floatConstant {v : UInt64} :
    Yields t (liftM (Assembly.floatConstant v)) d i d' ↔
      i = d.indexOf (.float v) ∧ d' = d.store (.float v) :=
  yields_modify_assembler rfl rfl

@[simp]
theorem yields_stringConstant {v : String} :
    Yields t (liftM (Assembly.stringConstant v)) d i d' ↔
      i = d.indexOf (.string v) ∧ d' = d.store (.string v) :=
  yields_modify_assembler rfl rfl

@[simp]
theorem yields_addressConstant {v : Pooled} :
    Yields t (liftM (Assembly.addressConstant v)) d i d' ↔
      i = d.indexOf (.address v) ∧ d' = d.store (.address v) :=
  yields_modify_assembler rfl rfl

theorem yields_nameIndex :
    Yields t (liftM (Assembly.nameIndex name)) d i d' →
      ∃ names, d' = d.withNames names := by
  rw [yields_lift]
  rintro ⟨s, ⟨run, -⟩, rfl⟩
  simp only [Assembly.nameIndex, modifyGet, MonadStateOf.modifyGet, StateT.run,
    StateT.modifyGet] at run
  split at run <;> cases run
  · exact ⟨d.assembler.names, rfl⟩
  · exact ⟨d.assembler.names.push name, rfl⟩

theorem yields_nameConstant (h : Yields t (liftM (Assembly.nameConstant name)) d i d') :
    ∃ names v, i = (d.withNames names).indexOf (.int v) ∧
      d' = (d.withNames names).store (.int v) := by
  rw [Assembly.nameConstant, yields_lift_bind] at h
  obtain ⟨n, d1, hname, hint⟩ := h
  obtain ⟨names, rfl⟩ := yields_nameIndex hname
  exact ⟨names, Int32.ofNat n, yields_intConstant.1 hint⟩

@[simp]
theorem yields_allocRegister :
    Yields t (liftM (Assembly.alloc bank?)) d n d' ↔
      ∃ b, bank? = some b ∧ d.Offers b n ∧ d' = d.take b n := by
  simp only [yields_lift, Assembly.does_alloc]
  constructor
  · rintro ⟨_, ⟨b, pool, rfl, hpool, rfl⟩, rfl⟩
    refine ⟨b, rfl, ⟨pool, hpool⟩, ?_⟩
    rw [Draft.take, ← (RegisterPool.get?_one hpool).2.2]
    rfl
  · rintro ⟨b, rfl, ⟨pool, hpool⟩, rfl⟩
    refine ⟨_, ⟨b, pool, rfl, hpool, rfl⟩, ?_⟩
    rw [Draft.take, ← (RegisterPool.get?_one hpool).2.2]
    rfl

@[simp]
theorem yields_alloc :
    Yields t (liftM (Place.alloc bank?)) d p d' ↔
      ∃ b n, bank? = some b ∧ d.Offers b n ∧ p = .fresh b n ∧
        d' = d.take b n := by
  simp only [Place.alloc, yields_lift_bind, yields_allocRegister]
  constructor
  · rintro ⟨n, _, ⟨b, rfl, offered, rfl⟩, h⟩
    obtain ⟨_, hpure, rfl⟩ := yields_lift.1 h
    obtain ⟨rfl, rfl⟩ := Assembly.does_pure.1 hpure
    exact ⟨b, n, rfl, offered, rfl, rfl⟩
  · rintro ⟨b, n, rfl, offered, rfl, rfl⟩
    exact ⟨n, _, ⟨b, rfl, offered, rfl⟩, yields_lift.2 ⟨_, Assembly.does_pure.2 ⟨rfl, rfl⟩, rfl⟩⟩

@[simp]
theorem yields_free : Yields t (liftM p.free) d u d' ↔ d.Holds p ∧ d' = d.drop p := by
  unfold Place.free Draft.Holds Draft.drop
  cases howned : p.isOwned <;> cases hbank : p.bank? with
  | none => simp [yields_lift, Assembly.release]
  | some b => simp [yields_lift, Assembly.does_release, Draft.give, Draft.withRegisters]

@[simp]
theorem yields_release :
    Yields t (liftM (Assembly.release (some b) n 1)) d u d' ↔
      ((d.assembler.pools.get b).release n 1).1 = true ∧ d' = d.give b n := by
  simp [yields_lift, Assembly.does_release, Draft.give, Draft.withRegisters]

@[simp]
theorem yields_emit {a b c : Operand} :
    Yields t (Lowering.emit op a b c) d u d' ↔
      (a.value ≤ 255 ∧ b.value ≤ 255 ∧ c.value ≤ 255) ∧ d' = d.push (.abc op a b c) := by
  simp [yields_lift, Lowering.emit, Assembly.does_abc, Draft.push]

@[simp]
theorem yields_emitWide {a bx : Operand} :
    Yields t (Lowering.emitWide op a bx) d u d' ↔
      a.value ≤ 255 ∧ d' = d.push (.abx op a bx) := by
  simp [yields_lift, Lowering.emitWide, Assembly.does_abx, Draft.push]

@[simp]
theorem yields_emitSigned {a : Operand} {offset : Int} :
    Yields t (Lowering.emitSigned op a offset) d u d' ↔
      (a.value ≤ 255 ∧ fitsOffset offset) ∧ d' = d.push (.asbx op a offset) := by
  simp [yields_lift, Lowering.emitSigned, Assembly.does_asbx, Draft.push]

@[simp]
theorem yields_skip {count : Nat} :
    Yields t (Lowering.skip count) d u d' ↔
      fitsOffset count ∧ d' = d.push (.asbx .jmp (.imm 0) count) := by
  simp [Lowering.skip, Operand.value]

@[simp]
theorem yields_position : Yields t (liftM Assembly.position) d n d' ↔ n = d.code.length ∧ d' = d :=
  yields_modify_assembler rfl rfl

@[simp]
theorem yields_jumpForward :
    Yields t (liftM Assembly.jumpForward) d n d' ↔
      n = d.code.length ∧ d' = d.push (.asbx .jmp (.imm 0) 0) :=
  yields_modify_assembler rfl rfl

@[simp]
theorem yields_patchTo {source target : Nat} :
    Yields t (liftM (Assembly.patchTo source target)) d u d' ↔
      fitsOffset (Assembly.jumpOffset source target) ∧ d' = d.retarget source target := by
  simp [yields_lift, Assembly.does_patchTo, Draft.retarget]

@[simp]
theorem yields_patch {source : Nat} :
    Yields t (liftM (Assembly.patch source)) d u d' ↔
      fitsOffset (Assembly.jumpOffset source d.code.length) ∧
        d' = d.retarget source d.code.length := by
  simp [yields_lift, Assembly.patch, Assembly.position, Assembly.does_patchTo, Draft.retarget, Draft.code]

@[simp]
theorem yields_jumpTo {target : Nat} :
    Yields t (liftM (Assembly.jumpTo target)) d u d' ↔
      fitsOffset (Assembly.jumpOffset d.code.length target) ∧
        d' = d.push (.asbx .jmp (.imm 0) (Assembly.jumpOffset d.code.length target)) := by
  simp [yields_lift, Assembly.jumpTo, Assembly.position, Assembly.does_checkJump, Assembly.does_asbx,
    Draft.push, Draft.code, Operand.value]

theorem yields_loadInt (h : Yields t (liftM (Assembly.loadInt n v)) d u d') :
    d' = d.push (.asbx .li (.reg Bank.int n) v.toInt) ∨
      d' = (d.store (.int v)).push
        (.abx (.lk .int) (.reg Bank.int n) (.pool Bank.int (d.indexOf (.int v)))) := by
  unfold Assembly.loadInt at h
  split at h
  next =>
    obtain ⟨_, hli, rfl⟩ := yields_lift.1 h
    simp only [Assembly.does_discard, Assembly.does_asbx] at hli
    obtain ⟨_, -, -, rfl⟩ := hli
    exact .inl rfl
  next =>
    simp only [yields_lift_bind, yields_intConstant] at h
    obtain ⟨_, _, ⟨rfl, rfl⟩, h⟩ := h
    obtain ⟨_, hlk, rfl⟩ := yields_lift.1 h
    simp only [Assembly.does_discard, Assembly.does_abx] at hlk
    obtain ⟨_, -, -, rfl⟩ := hlk
    exact .inr rfl

@[simp]
theorem not_yields_note {fault : AssemblyFault} :
    ¬ Yields t (liftM (Assembly.note fault)) d u d' := by
  simp [yields_lift]

@[simp]
theorem not_yields_unresolved {what : String} : ¬ Yields t (Lowering.unresolved what) d p d' := by
  simp [Lowering.unresolved]

@[simp]
theorem yields_pooledInt {o : Operand} :
    Yields t (Lowering.pooledInt v) d o d' ↔
      o = .pool (some .int) (d.indexOf (.int v)) ∧ d' = d.store (.int v) := by
  simp [Lowering.pooledInt, and_comm]

@[simp]
theorem yields_pooledAddress {v : Pooled} :
    Yields t (Lowering.pooledAddress v) d p d' ↔
      p = .constant (some .pointer) (d.indexOf (.address v)) ∧ d' = d.store (.address v) := by
  simp [Lowering.pooledAddress, and_comm]

theorem yields_allocIn : Yields t (liftM (Place.alloc (some b))) d p d' ↔
    ∃ n, d.Offers b n ∧ p = .fresh b n ∧ d' = d.take b n := by
  simp

theorem exists_step {P : Unit → Draft → Prop} {A : Prop} :
    (∃ u d1, (A ∧ d1 = d) ∧ P u d1) ↔ A ∧ P () d := by
  constructor
  · rintro ⟨⟨⟩, _, ⟨ha, rfl⟩, h⟩
    exact ⟨ha, h⟩
  · rintro ⟨ha, h⟩
    exact ⟨(), d, ⟨ha, rfl⟩, h⟩

theorem exists_answer {P : α → Draft → Prop} {a : α} :
    (∃ a' d1, (a' = a ∧ d1 = d) ∧ P a' d1) ↔ P a d := by
  simp

theorem exists_choice {P : Place → Draft → Prop} {Q : Nat → Prop} {f : Nat → Place}
    {g : Nat → Draft} :
    (∃ p d1, (∃ n, Q n ∧ p = f n ∧ d1 = g n) ∧ P p d1) ↔ ∃ n, Q n ∧ P (f n) (g n) := by
  constructor
  · rintro ⟨_, _, ⟨n, hn, rfl, rfl⟩, h⟩
    exact ⟨n, hn, h⟩
  · rintro ⟨n, hn, h⟩
    exact ⟨_, _, ⟨n, hn, rfl, rfl⟩, h⟩

/-- What single steps do, together, so that a run can be taken apart at once. What a step leaves
behind is put in where the run goes on. -/
theorem yields_steps : type_of% @yields_bind ∧ type_of% @yields_pure ∧ type_of% @yields_emit ∧
    type_of% @yields_emitWide ∧ type_of% @yields_emitSigned ∧ type_of% @yields_skip ∧
    type_of% @yields_allocIn ∧ type_of% @yields_free ∧ type_of% @yields_position ∧
    type_of% @yields_jumpForward ∧ type_of% @yields_jumpTo ∧ type_of% @yields_patch ∧
    type_of% @yields_patchTo ∧ type_of% @yields_pooledInt ∧ type_of% @yields_pooledAddress ∧
    type_of% @exists_step ∧ type_of% @exists_answer ∧ type_of% @exists_choice :=
  ⟨yields_bind, yields_pure, yields_emit, yields_emitWide, yields_emitSigned, yields_skip,
    yields_allocIn, yields_free, yields_position, yields_jumpForward, yields_jumpTo, yields_patch,
    yields_patchTo, yields_pooledInt, yields_pooledAddress, exists_step, exists_answer,
    exists_choice⟩

end Steps

end ActorScript
