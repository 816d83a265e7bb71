import ActorScript.Proofs.Machine.Floats

/-! # Words as numbers

A word stands for a number modulo 2 ^ 32. What the operations on words do is said by what they do
to the numbers.
-/

namespace ActorScript

/-! ## Numbers in the range of a word -/

/-- The number in the range of signed or unsigned words that a number is taken for. -/
def wrapTo (unsigned : Bool) (n : Int) : Int :=
  if unsigned then n % 2 ^ 32 else n.bmod (2 ^ 32)

def InRange (unsigned : Bool) (n : Int) : Prop :=
  if unsigned then 0 ≤ n ∧ n < 2 ^ 32 else -2 ^ 31 ≤ n ∧ n < 2 ^ 31

theorem inRange_wrapTo (unsigned : Bool) (n : Int) : InRange unsigned (wrapTo unsigned n) := by
  unfold InRange wrapTo
  split
  · omega
  · have hlow := Int.le_bmod (x := n) (m := 2 ^ 32) (by decide)
    have hhigh := Int.bmod_lt (x := n) (m := 2 ^ 32) (by decide)
    omega

theorem wrapTo_of_inRange {unsigned : Bool} {n : Int} (h : InRange unsigned n) :
    wrapTo unsigned n = n := by
  unfold InRange at h
  unfold wrapTo
  split at h
  · rw [if_pos ‹_›]
    omega
  · rw [if_neg ‹_›]
    exact Int.bmod_eq_of_le (by omega) (by omega)

theorem ofInt_wrapTo (unsigned : Bool) (n : Int) :
    Int32.ofInt (wrapTo unsigned n) = Int32.ofInt n := by
  unfold wrapTo
  rw [Int32.ofInt_eq_iff_bmod_eq_toInt, Int32.toInt_ofInt]
  split
  · exact Int.emod_bmod n (2 ^ 32)
  · exact Int.bmod_bmod

/-! ## Words of numbers -/

theorem toInt_ofInt (n : Int) : (Int32.ofInt n).toInt = wrapTo false n :=
  Int32.toInt_ofInt

theorem toNat_ofInt (n : Int) : ((Int32.ofInt n).toUInt32.toNat : Int) = wrapTo true n := by
  have h : (Int32.ofInt n).toUInt32.toNat = (n % (2 ^ 32 : Nat)).toNat := BitVec.toNat_ofInt ..
  rw [h, wrapTo, if_pos rfl]
  omega

/-- Words are equal if they are as unsigned numbers. -/
theorem eq_ofInt {v : Int32} {n : Int} (h : (v.toUInt32.toNat : Int) = wrapTo true n) :
    v = Int32.ofInt n := by
  rw [← toNat_ofInt] at h
  have hword : v.toUInt32 = (Int32.ofInt n).toUInt32 := UInt32.toNat_inj.1 (Int.ofNat.inj h)
  exact Int32.toBitVec.inj (congrArg UInt32.toBitVec hword)

theorem toInt32_eq_ofInt (u : UInt32) : u.toInt32 = Int32.ofInt u.toNat := by
  apply eq_ofInt
  have hlt := u.toNat_lt
  rw [wrapTo, if_pos rfl]
  change (u.toNat : Int) = u.toNat % 2 ^ 32
  omega

/-- The number that a word was made of, if the word has room for it. -/
theorem wordValue_ofInt {unsigned : Bool} {n : Int} (h : InRange unsigned n) {ty : Ty}
    (hty : ty.isUnsigned = unsigned) : wordValue ty (Int32.ofInt n) = n := by
  unfold wordValue
  rw [hty, toNat_ofInt, toInt_ofInt]
  cases unsigned
  · exact wrapTo_of_inRange h
  · exact wrapTo_of_inRange h

/-! ## Shifts -/

/-- Shifts go by the amount modulo 32. -/
theorem toNat_smod (w : Int32) : (w.toBitVec.smod 32).toNat = (w.toInt % 32).toNat := by
  have hint : (w.toBitVec.smod 32).toInt = w.toInt % 32 := by
    rw [BitVec.toInt_smod]
    exact Int.fmod_eq_emod_of_nonneg _ (by decide)
  have hcond := BitVec.toInt_eq_toNat_cond (w.toBitVec.smod 32)
  have hlt := (w.toBitVec.smod 32).isLt
  split at hcond <;> omega

theorem emod_ofInt (n : Int) : (Int32.ofInt n).toInt % 32 = n % 32 := by
  rw [toInt_ofInt, wrapTo, if_neg (by decide), Int.bmod_def]
  split <;> omega

theorem shiftLeft_eq_mul (v w : Int32) :
    v <<< w = v * Int32.ofNat (2 ^ (w.toInt % 32).toNat) := by
  apply Int32.toBitVec.inj
  change v.toBitVec <<< (w.toBitVec.smod 32) =
    v.toBitVec * BitVec.ofNat 32 (2 ^ (w.toInt % 32).toNat)
  rw [BitVec.shiftLeft_eq', toNat_smod, BitVec.shiftLeft_eq_mul_twoPow]
  congr 1
  apply BitVec.eq_of_toNat_eq
  rw [BitVec.toNat_twoPow, BitVec.toNat_ofNat]

theorem toInt_shiftRight (v w : Int32) :
    (v >>> w).toInt = v.toInt / 2 ^ (w.toInt % 32).toNat := by
  have h : (v >>> w).toInt = (v.toBitVec.sshiftRight (w.toBitVec.smod 32).toNat).toInt := rfl
  rw [h, BitVec.toInt_sshiftRight, toNat_smod, Int.shiftRight_eq_div_pow]
  rfl

theorem toNat_shiftRight (v w : Int32) :
    (v.toUInt32 >>> w.toUInt32).toNat = v.toUInt32.toNat / 2 ^ (w.toInt % 32).toNat := by
  have hamount : w.toUInt32.toNat % 32 = (w.toInt % 32).toNat := by
    have h := toUInt32_toNat w
    split at h <;> omega
  rw [UInt32.toNat_shiftRight, hamount, Nat.shiftRight_eq_div_pow]

end ActorScript
