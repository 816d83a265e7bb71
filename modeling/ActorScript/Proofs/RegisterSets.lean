import ActorScript.Bytecode.RegisterPool
import Mathlib.Data.Nat.Count
import Mathlib.Order.Interval.Finset.Nat

/-! # Register pools as sets of registers

A pool stands for the set of the registers whose bits are set in its words. Requests to it are
answered as the set tells, and the high water mark is the bound of all sets that the pool has stood
for.
-/

namespace ActorScript

namespace RegisterPool

variable {pool : RegisterPool} {reg other start count limit : Nat}

/-! ## Bits -/

theorem toNat_shift {k : Nat} (hk : k < 64) : (k.toUInt64.toBitVec % 64).toNat = k := by
  change k % 2 ^ 64 % 64 = k
  omega

theorem getLsbD_bit {k : Nat} (hk : k < 64) (i : Nat) :
    ((1 : UInt64) <<< k.toUInt64).toBitVec.getLsbD i = decide (i = k) := by
  rw [UInt64.toBitVec_shiftLeft, BitVec.shiftLeft_eq', toNat_shift hk, BitVec.getLsbD_shiftLeft]
  change (_ && _ && (1#64).getLsbD _) = _
  rw [BitVec.getLsbD_one]
  grind

theorem isUsed_eq_getLsbD (pool : RegisterPool) (reg : Nat) :
    pool.isUsed reg = (pool.word reg).toBitVec.getLsbD (reg % 64) := by
  have hshift : (pool.word reg >>> (reg % 64).toUInt64 &&& 1).toBitVec =
      (BitVec.ofBool ((pool.word reg).toBitVec.getLsbD (reg % 64))).setWidth 64 := by
    rw [UInt64.toBitVec_and, UInt64.toBitVec_shiftRight, BitVec.ushiftRight_eq',
      toNat_shift (Nat.mod_lt _ (by decide)), ← Nat.add_zero (reg % 64),
      ← BitVec.getLsbD_ushiftRight]
    exact BitVec.and_one_eq_setWidth_ofBool_getLsbD
  rw [isUsed, Bool.eq_iff_iff, bne_iff_ne, Ne, ← UInt64.toBitVec_inj, hshift]
  cases (pool.word reg).toBitVec.getLsbD (reg % 64) <;> decide

theorem isUsed_lt (h : pool.isUsed reg = true) : reg < 256 := by
  by_contra hge
  have hword : pool.used[reg / 64]? = none := Vector.getElem?_eq_none (by omega)
  simp [isUsed_eq_getLsbD, word, hword] at h

@[simp]
theorem isUsed_empty (reg : Nat) : ({} : RegisterPool).isUsed reg = false := by
  have hword : ({} : RegisterPool).word reg = 0 := by
    rw [word, Vector.getElem?_replicate]
    split <;> rfl
  rw [isUsed_eq_getLsbD, hword]
  exact BitVec.getLsbD_zero

/-- Only the bit of the register is changed, in its own word. -/
theorem isUsed_set (pool : RegisterPool) (hreg : reg < 256) (on : Bool) (other : Nat) :
    (pool.set reg on).isUsed other = if other = reg then on else pool.isUsed other := by
  have hk : reg % 64 < 64 := Nat.mod_lt _ (by decide)
  have hj : other % 64 < 64 := Nat.mod_lt _ (by decide)
  rw [isUsed_eq_getLsbD, isUsed_eq_getLsbD, word, word, set, Vector.getElem?_setIfInBounds]
  by_cases hword : reg / 64 = other / 64
  · have hsame : other % 64 = reg % 64 ↔ other = reg := by omega
    rw [if_pos hword, if_pos (by omega), Option.getD_some, word, hword]
    cases on with
    | false =>
      rw [if_neg (by decide), UInt64.toBitVec_and, UInt64.toBitVec_not, BitVec.getLsbD_and,
        BitVec.getLsbD_not, getLsbD_bit hk]
      by_cases h : other = reg <;> simp [h, hsame, hj]
    | true =>
      rw [if_pos rfl, UInt64.toBitVec_or, BitVec.getLsbD_or, getLsbD_bit hk]
      by_cases h : other = reg <;> simp [h, hsame]
  · rw [if_neg hword, if_neg (fun h => hword (by rw [h]))]

/-- What a loop that sets bits does to the set. -/
theorem isUsed_foldl_set {regs : List Nat} (hregs : ∀ reg ∈ regs, reg < 256) (on : Bool) :
    (regs.foldl (fun pool reg => pool.set reg on) pool).isUsed other =
      if other ∈ regs then on else pool.isUsed other := by
  induction regs generalizing pool with
  | nil => simp
  | cons reg regs ih =>
    obtain ⟨hreg, hregs⟩ := List.forall_mem_cons.1 hregs
    rw [List.foldl_cons, ih hregs, isUsed_set pool hreg]
    by_cases hmem : other ∈ regs <;> by_cases h : other = reg <;> simp [hmem, h]

/-- A loop that clears bits notes each as it stood at first, since it comes to it only once. -/
theorem foldl_release {regs : List Nat} (hregs : ∀ reg ∈ regs, reg < 256) (hnodup : regs.Nodup)
    (wasUsed : Bool) :
    regs.foldl releaseNext (wasUsed, pool) =
      (wasUsed && regs.all pool.isUsed, regs.foldl (fun pool reg => pool.set reg false) pool) := by
  induction regs generalizing wasUsed pool with
  | nil => simp
  | cons reg regs ih =>
    obtain ⟨hreg, hregs⟩ := List.forall_mem_cons.1 hregs
    obtain ⟨hnew, hnodup⟩ := List.nodup_cons.1 hnodup
    have hkept : regs.all (pool.set reg false).isUsed = regs.all pool.isUsed := by
      rw [Bool.eq_iff_iff, List.all_eq_true, List.all_eq_true]
      refine forall₂_congr fun other hother => ?_
      rw [isUsed_set pool hreg, if_neg (ne_of_mem_of_not_mem hother hnew)]
    rw [List.foldl_cons, releaseNext, ih hregs hnodup, hkept, List.all_cons, Bool.and_assoc,
      List.foldl_cons]

/-! ## Sets -/

def inUse (pool : RegisterPool) : Finset Nat :=
  (Finset.range registerCount).filter fun reg => pool.isUsed reg = true

@[simp]
theorem mem_inUse : reg ∈ pool.inUse ↔ pool.isUsed reg = true := by
  simpa [inUse, registerCount] using isUsed_lt

theorem cpop_eq_count (word : UInt64) :
    word.toBitVec.cpop.toNat = Nat.count (fun k => word.toBitVec.getLsbD k = true) 64 := by
  have hrec (n : Nat) :
      word.toBitVec.cpopNatRec n 0 = Nat.count (fun k => word.toBitVec.getLsbD k = true) n := by
    induction n with
    | zero => simp
    | succ n ih =>
      rw [BitVec.cpopNatRec_succ, BitVec.cpopNatRec_add, ih, Nat.count_succ]
      cases word.toBitVec.getLsbD n <;> simp
  rw [BitVec.toNat_cpop, hrec]

theorem count_word (pool : RegisterPool) (i : Nat) :
    Nat.count (fun k => (pool.used[i]?.getD 0).toBitVec.getLsbD k = true) 64 =
      Nat.count (fun k => pool.isUsed (64 * i + k) = true) 64 := by
  rw [Nat.count_eq_card_filter_range, Nat.count_eq_card_filter_range]
  congr 1
  refine Finset.filter_congr fun k hk => ?_
  have hk := Finset.mem_range.1 hk
  rw [isUsed_eq_getLsbD, word, show (64 * i + k) / 64 = i by omega,
    show (64 * i + k) % 64 = k by omega]

theorem live_eq_card (pool : RegisterPool) : pool.live = pool.inUse.card := by
  have hwords : pool.used.toList = (List.range 4).map fun i => pool.used[i]?.getD 0 :=
    List.ext_getElem (by simp) fun i hi _ => by
      have hi : i < 4 := by simpa using hi
      simp [hi]
  have hsplit : Nat.count (fun reg => pool.isUsed reg = true) 256 =
      (List.range 4).foldl
        (fun count i => count + Nat.count (fun k => pool.isUsed (64 * i + k) = true) 64) 0 := by
    rw [show 256 = 64 + 64 + 64 + 64 by rfl, Nat.count_add, Nat.count_add, Nat.count_add]
    simp [List.range_succ]
  rw [inUse, ← Nat.count_eq_card_filter_range, registerCount, hsplit, live, hwords, List.foldl_map]
  simp only [cpop_eq_count, count_word]

/-! ## The search for a free run -/

/-- Registers from `start` on that exist and are not in `used`. -/
def IsFree (used : Finset Nat) (start count : Nat) : Prop :=
  start + count ≤ registerCount ∧ Disjoint (Finset.Ico start (start + count)) used

/-- A register in use lies in every run that begins between the start of the search and it. -/
theorem not_isFree_of_used (hreg : reg ∈ pool.inUse) (hrun : reg < start + count)
    (hother : start ≤ other) (hle : other ≤ reg) : ¬ IsFree pool.inUse other count := fun h =>
  Finset.disjoint_left.1 h.2 (Finset.mem_Ico.2 ⟨hle, by omega⟩) hreg

/-- Nothing before `start` is free; so what the search gives is the lowest run of all, and there
is none if it gives nothing. -/
theorem searchFrom_spec (hbefore : ∀ other < start, ¬ IsFree pool.inUse other count)
    (hlimit : registerCount < start + limit) :
    (pool.searchFrom count limit start).elim (∀ other, ¬ IsFree pool.inUse other count) fun found =>
      IsFree pool.inUse found count ∧ ∀ other < found, ¬ IsFree pool.inUse other count := by
  induction limit generalizing start with
  | zero =>
    intro other hfree
    exact hbefore other (by have := hfree.1; omega) hfree
  | succ limit ih =>
    rw [searchFrom]
    split
    next hroom =>
      split
      next hnone =>
        refine ⟨⟨hroom, Finset.disjoint_left.2 fun r hr hused => ?_⟩, hbefore⟩
        have hr := Finset.mem_Ico.1 hr
        exact List.find?_eq_none.1 hnone r (by simp; omega) (mem_inUse.1 hused)
      next reg hfound =>
        have hmem := List.mem_range'_1.1 (List.mem_of_find?_eq_some hfound)
        have hused := mem_inUse.2 (List.find?_some hfound)
        refine ih (fun other hother => ?_) (by omega)
        by_cases hlt : other < start
        · exact hbefore other hlt
        · exact not_isFree_of_used hused hmem.2 (Nat.le_of_not_lt hlt) (Nat.le_of_lt_succ hother)
    next hroom =>
      intro other hfree
      exact hbefore other (by have := hfree.1; omega) hfree

/-! ## Requests -/

/-- A run is taken only if it is free and none before it is; nothing is taken only if no run is
free. -/
theorem get?_spec (pool : RegisterPool) (count : Nat) :
    (pool.get? count).elim (∀ start, ¬ IsFree pool.inUse start count) fun (start, next) =>
      IsLeast {start | IsFree pool.inUse start count} start ∧ next = pool.take start count := by
  have hspec : (pool.searchFrom count (registerCount + 1) 0).elim _ _ :=
    searchFrom_spec (by simp) (by decide)
  unfold get?
  cases h : pool.searchFrom count (registerCount + 1) 0 with
  | none => simpa [h] using hspec
  | some start =>
    rw [h] at hspec
    exact ⟨⟨hspec.1, fun other hother => Nat.le_of_not_lt fun hlt => hspec.2 other hlt hother⟩, rfl⟩

theorem reuse?_eq (pool : RegisterPool) (reg : Nat) :
    pool.reuse? reg = if reg < 256 ∧ reg ∉ pool.inUse then some (pool.take reg 1) else none := by
  simp only [reuse?, mem_inUse]
  grind [registerCount, take]

theorem inUse_take (h : start + count ≤ 256) :
    (pool.take start count).inUse = pool.inUse ∪ Finset.Ico start (start + count) := by
  ext reg
  have hregs : ∀ reg ∈ List.range' start count, reg < 256 := by
    simp only [List.mem_range'_1]
    omega
  change reg ∈ RegisterPool.inUse _ ↔ _
  rw [mem_inUse, Finset.mem_union, mem_inUse, Finset.mem_Ico, ← List.mem_range'_1]
  change (List.foldl _ pool _).isUsed reg = true ↔ _
  rw [isUsed_foldl_set hregs]
  by_cases hmem : reg ∈ List.range' start count <;> simp [hmem]

theorem mem_existing : other ∈ existing reg count ↔
    other ∈ Finset.Ico reg (reg + count) ∧ other < 256 := by
  rw [existing, List.mem_range'_1, Finset.mem_Ico, registerCount]
  omega

theorem release_eq (pool : RegisterPool) (reg count : Nat) :
    pool.release reg count = ((existing reg count).all pool.isUsed,
      (existing reg count).foldl (fun pool reg => pool.set reg false) pool) := by
  rw [release, foldl_release (fun other hother => (mem_existing.1 hother).2) List.nodup_range',
    Bool.true_and]

theorem inUse_release (pool : RegisterPool) (reg count : Nat) :
    (pool.release reg count).2.inUse = pool.inUse \ Finset.Ico reg (reg + count) := by
  ext other
  have hlt := @isUsed_lt pool other
  rw [mem_inUse, release_eq, isUsed_foldl_set fun other hother => (mem_existing.1 hother).2,
    Finset.mem_sdiff, mem_inUse]
  simp only [mem_existing]
  grind

theorem highWater_release (pool : RegisterPool) (reg count : Nat) :
    (pool.release reg count).2.highWater = pool.highWater := by
  have hkept (regs : List Nat) (pool : RegisterPool) :
      (regs.foldl (fun pool reg => pool.set reg false) pool).highWater = pool.highWater := by
    induction regs generalizing pool with
    | nil => rfl
    | cons reg regs ih => exact ih (pool.set reg false)
  rw [release_eq]
  exact hkept _ pool

theorem release_eq_true_iff :
    (pool.release reg count).1 = true ↔
      ∀ other ∈ Finset.Ico reg (reg + count), other < 256 → other ∈ pool.inUse := by
  rw [release_eq, List.all_eq_true]
  simp only [mem_existing, mem_inUse, and_imp]

end RegisterPool

/-! ## Runs -/

/-- What may be asked of a pool. -/
inductive PoolRequest where
  | get (count : Nat)
  | release (reg count : Nat)
  | reuse (reg : Nat)

/-- A register where a free run begins, or whether a request was in order. -/
inductive PoolAnswer where
  | start (reg? : Option Nat)
  | order (ok : Bool)

namespace RegisterPool

variable {pool : RegisterPool} {start count : Nat}

def ask (pool : RegisterPool) : PoolRequest → PoolAnswer × RegisterPool
  | .get count => ((pool.get? count).elim (.start none, pool)) fun (reg, after) => (.start reg, after)
  | .release reg count => (pool.release reg count).map .order id
  | .reuse reg => (pool.reuse? reg).elim (.order false, pool) fun after => (.order true, after)

def after (requests : List PoolRequest) : RegisterPool :=
  requests.foldl (fun pool request => (pool.ask request).2) {}

/-- The answer to a request by a set of registers, and the set after it. Registers that do not
exist are not asked for on release. -/
inductive Answers (used : Finset Nat) : PoolRequest → PoolAnswer → Finset Nat → Prop
  | found {start count : Nat} : IsLeast {start | IsFree used start count} start →
      Answers used (.get count) (.start (some start)) (used ∪ Finset.Ico start (start + count))
  | full {count : Nat} : (∀ start, ¬ IsFree used start count) →
      Answers used (.get count) (.start none) used
  | release {reg count : Nat} {ok : Bool} :
      (ok = true ↔ ∀ other ∈ Finset.Ico reg (reg + count), other < 256 → other ∈ used) →
      Answers used (.release reg count) (.order ok) (used \ Finset.Ico reg (reg + count))
  | reuse {reg : Nat} : reg < 256 → reg ∉ used →
      Answers used (.reuse reg) (.order true) (insert reg used)
  | refuse {reg : Nat} : ¬ (reg < 256 ∧ reg ∉ used) → Answers used (.reuse reg) (.order false) used

theorem ask_answers (pool : RegisterPool) (request : PoolRequest) :
    Answers pool.inUse request (pool.ask request).1 (pool.ask request).2.inUse := by
  cases request with
  | get count =>
    have hspec := pool.get?_spec count
    rw [ask]
    cases hget : pool.get? count with
    | none =>
      rw [hget] at hspec
      exact .full hspec
    | some found =>
      rw [hget] at hspec
      obtain ⟨start, next⟩ := found
      obtain ⟨hleast, rfl⟩ := hspec
      change Answers _ _ _ (pool.take start count).inUse
      rw [inUse_take hleast.1.1]
      exact .found hleast
  | release reg count =>
    change Answers _ _ _ (pool.release reg count).2.inUse
    rw [inUse_release]
    exact .release release_eq_true_iff
  | reuse reg =>
    rw [ask, reuse?_eq]
    by_cases h : reg < 256 ∧ reg ∉ pool.inUse
    · have hanswer := Answers.reuse h.1 h.2
      rw [← Finset.union_singleton, ← Nat.Ico_succ_singleton, ← inUse_take h.1] at hanswer
      rwa [if_pos h]
    · rw [if_neg h]
      exact .refuse h

/-- A mark above all registers in use is raised to a run that is taken. Empty runs are taken at 0. -/
theorem highWater_take_le_iff {bound : Nat} (hmark : ∀ reg ∈ pool.inUse, reg < pool.highWater)
    (hroom : start + count ≤ 256) (hempty : count = 0 → start = 0) :
    (pool.take start count).highWater ≤ bound ↔
      pool.highWater ≤ bound ∧ ∀ reg ∈ (pool.take start count).inUse, reg < bound := by
  rw [inUse_take hroom]
  simp only [take, max_le_iff, Finset.mem_union, Finset.mem_Ico]
  refine and_congr_right fun hbound => ⟨fun hrun reg hreg => ?_, fun h => ?_⟩
  · rcases hreg with hreg | hreg
    · exact (hmark reg hreg).trans_le hbound
    · omega
  · have := h (start + count - 1)
    omega

theorem highWater_ask_le_iff {bound : Nat} (hmark : ∀ reg ∈ pool.inUse, reg < pool.highWater)
    (request : PoolRequest) :
    (pool.ask request).2.highWater ≤ bound ↔
      pool.highWater ≤ bound ∧ ∀ reg ∈ (pool.ask request).2.inUse, reg < bound := by
  have hkept {used : Finset Nat} (hsub : used ⊆ pool.inUse) :
      pool.highWater ≤ bound ↔ pool.highWater ≤ bound ∧ ∀ reg ∈ used, reg < bound :=
    (and_iff_left_of_imp fun h reg hreg => (hmark reg (hsub hreg)).trans_le h).symm
  cases request with
  | get count =>
    have hspec := pool.get?_spec count
    rw [ask]
    cases hget : pool.get? count with
    | none => exact hkept subset_rfl
    | some found =>
      rw [hget] at hspec
      obtain ⟨start, next⟩ := found
      obtain ⟨hleast, rfl⟩ := hspec
      exact highWater_take_le_iff hmark hleast.1.1 fun hcount =>
        Nat.le_zero.1 (hleast.2 ⟨by simp [hcount], by simp [hcount]⟩)
  | release reg count =>
    change (pool.release reg count).2.highWater ≤ _ ↔
      _ ∧ ∀ other ∈ (pool.release reg count).2.inUse, _
    rw [inUse_release, highWater_release]
    exact hkept Finset.sdiff_subset
  | reuse reg =>
    rw [ask, reuse?_eq]
    split
    next h => exact highWater_take_le_iff hmark h.1 (by simp)
    next => exact hkept subset_rfl

theorem after_concat (requests : List PoolRequest) (request : PoolRequest) :
    after (requests ++ [request]) = ((after requests).ask request).2 := by
  simp [after]

/-- The mark is the bound of all registers that were ever in use. -/
theorem highWater_after_le_iff {requests : List PoolRequest} {bound : Nat} :
    (after requests).highWater ≤ bound ↔
      ∀ past, past <+: requests → ∀ reg ∈ (after past).inUse, reg < bound := by
  induction requests using List.reverseRecOn generalizing bound with
  | nil =>
    simp only [List.prefix_nil, forall_eq]
    exact iff_of_true (Nat.zero_le bound) (by simp [after])
  | append_singleton requests request ih =>
    have hmark := ih.1 le_rfl requests List.prefix_rfl
    simp only [after_concat, highWater_ask_le_iff hmark, ih, List.prefix_concat_iff, or_imp,
      forall_and, forall_eq]
    exact and_comm

/-- At any time of any run a pool answers as the set of its registers in use does, which is empty at
first; it counts the set, and its mark is one more than the greatest register that was ever in it. -/
theorem pool_refines_set (requests : List PoolRequest) (request : PoolRequest) :
    (after []).inUse = ∅ ∧ (after requests).inUse ⊆ Finset.range 256 ∧
      Answers (after requests).inUse request ((after requests).ask request).1
        (after (requests ++ [request])).inUse ∧
      (after requests).live = (after requests).inUse.card ∧
      ∀ bound, (after requests).highWater ≤ bound ↔
        ∀ past, past <+: requests → ∀ reg ∈ (after past).inUse, reg < bound := by
  refine ⟨by simp [after, inUse], Finset.filter_subset _ _, ?_, live_eq_card _,
    fun bound => highWater_after_le_iff⟩
  rw [after_concat]
  exact ask_answers _ _

/-- Register 256 does not exist, so it is never in use. To release it is in order all the same. -/
theorem release_beyond_last :
    (({} : RegisterPool).release 256 1).1 = true ∧
      ¬ Finset.Ico 256 (256 + 1) ⊆ ({} : RegisterPool).inUse := by
  refine ⟨by decide, fun h => ?_⟩
  simpa using h (Finset.mem_Ico.2 ⟨le_rfl, Nat.lt_succ_self 256⟩)

end RegisterPool

end ActorScript
