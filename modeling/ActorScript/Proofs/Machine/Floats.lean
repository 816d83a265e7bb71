import ActorScript.Constant
import Mathlib.Algebra.Order.Ring.Int

/-! # The order of floats

Comparing two floats has one of three outcomes, or none if one of them is not a number. Words are
whole floats, which are in the order of the numbers that they stand for.
-/

namespace ActorScript

open Float.Model (Format totalExponent UnpackedFloat)
open Float.Model.UnpackedFloat

/-! ## Outcomes -/

def floatOrder (x y : Float) : Option Ordering :=
  x.toModel.unpack.compare y.toModel.unpack

section Order

variable {x y : Float}

theorem float_lt_iff : x < y ↔ floatOrder x y = some .lt := by
  change decide (x.toModel.unpack.lt y.toModel.unpack = true) = true ↔ _
  simp [UnpackedFloat.lt, floatOrder]

theorem float_le_iff : x ≤ y ↔ floatOrder x y = some .lt ∨ floatOrder x y = some .eq := by
  change decide (x.toModel.unpack.le y.toModel.unpack = true) = true ↔ _
  rw [decide_eq_true_eq, UnpackedFloat.le, ← floatOrder]
  rcases floatOrder x y with _ | (_ | _ | _) <;> simp

theorem float_beq_iff : (x == y) = true ↔ floatOrder x y = some .eq := by
  change (floatOrder x y == some .eq) = true ↔ _
  exact beq_iff_eq

theorem sign_compare_swap (s s' : Sign) : compare s' s = (compare s s').swap := by
  cases s <;> cases s' <;> rfl

theorem unpacked_compare_swap (x y : UnpackedFloat) :
    y.compare x = (x.compare y).map Ordering.swap := by
  cases x with
  | notANumber => cases y <;> rfl
  | infinity s =>
    cases y with
    | infinity s' => exact congrArg some (sign_compare_swap s s')
    | notANumber | zero | finite => cases s <;> rfl
  | zero s =>
    cases y with
    | infinity s' | finite s' => cases s' <;> rfl
    | notANumber | zero => rfl
  | finite s m e hm =>
    cases y with
    | infinity s' => cases s' <;> rfl
    | notANumber | zero => cases s <;> rfl
    | finite s' m' e' hm' =>
      have hswap : (compare e' e).then (compare m' m) =
          ((compare e e').then (compare m m')).swap := by
        rw [Ordering.swap_then, Int.compare_swap, Nat.compare_swap]
      cases s with
      | positive =>
        cases s' with
        | positive => exact congrArg some hswap
        | negative => rfl
      | negative =>
        cases s' with
        | positive => rfl
        | negative => exact congrArg (fun order => some order.swap) hswap

theorem floatOrder_swap (x y : Float) : floatOrder y x = (floatOrder x y).map Ordering.swap :=
  unpacked_compare_swap _ _

theorem floatOrder_eq_none : floatOrder x y = none ↔ x.isNaN = true ∨ y.isNaN = true := by
  change _ ↔ x.toModel.unpack.isNaN = true ∨ y.toModel.unpack.isNaN = true
  unfold floatOrder
  cases x.toModel.unpack with
  | notANumber => exact iff_of_true rfl (.inl rfl)
  | infinity s | zero s | finite s =>
    cases y.toModel.unpack with
    | notANumber => exact iff_of_true (by cases s <;> rfl) (.inr rfl)
    | infinity s' | zero s' | finite s' =>
      refine iff_of_false ?_ (by rintro (h | h) <;> exact Bool.false_ne_true h)
      cases s <;> cases s' <;> exact Option.some_ne_none _

end Order

/-! ## Whole floats -/

/-- The mantissa of a whole number, with its leading bit where normal floats have it. -/
def leadingBits (n : Nat) : Nat :=
  n * 2 ^ (52 - n.log2)

theorem leadingBits_bounds {n : Nat} (hn : n ≠ 0) (hlog : n.log2 ≤ 52) :
    2 ^ 52 ≤ leadingBits n ∧ leadingBits n < 2 ^ 53 := by
  have hlow := Nat.log2_self_le hn
  have hhigh : n < 2 ^ (n.log2 + 1) := Nat.lt_log2_self
  have hpow : 2 ^ n.log2 * 2 ^ (52 - n.log2) = 2 ^ 52 := by
    rw [← Nat.pow_add, Nat.add_sub_cancel' hlog]
  have hpow' : 2 ^ (n.log2 + 1) * 2 ^ (52 - n.log2) = 2 ^ 53 := by
    rw [← Nat.pow_add]
    congr 1
    omega
  have hpos : 0 < 2 ^ (52 - n.log2) := Nat.two_pow_pos _
  unfold leadingBits
  exact ⟨hpow ▸ Nat.mul_le_mul_right _ hlow, hpow' ▸ Nat.mul_lt_mul_of_pos_right hhigh hpos⟩

theorem log2_leadingBits {n : Nat} (hn : n ≠ 0) (hlog : n.log2 ≤ 52) :
    (leadingBits n).log2 = 52 := by
  obtain ⟨hlow, hhigh⟩ := leadingBits_bounds hn hlog
  have hne : leadingBits n ≠ 0 := by omega
  have hge := (Nat.le_log2 hne).2 hlow
  have hlt := (Nat.log2_lt hne).2 hhigh
  omega

theorem leadingBits_pos {n : Nat} (hn : n ≠ 0) : 0 < leadingBits n :=
  Nat.mul_pos (Nat.pos_of_ne_zero hn) (Nat.two_pow_pos _)

def whole (s : Sign) (n : Nat) : UnpackedFloat :=
  if h : n = 0 then .zero s else .finite s (leadingBits n) (n.log2 - 52) (leadingBits_pos h)

theorem mantissaBits_binary64 : Format.binary64.mantissaBits = 53 := rfl

theorem finite_congr {s s' : Sign} {m m' : Nat} {e e' : Int} (hs : s = s') (hm : m = m')
    (he : e = e') (hpos : 0 < m) :
    UnpackedFloat.finite s m e hpos = .finite s' m' e' (hm ▸ hpos) := by
  subst hs hm he
  rfl

theorem whole_of_ne {n : Nat} (hn : n ≠ 0) (s : Sign) :
    whole s n = .finite s (leadingBits n) (n.log2 - 52) (leadingBits_pos hn) :=
  dif_neg hn

theorem neg_whole (s : Sign) (n : Nat) : (whole s n).neg = whole (-s) n := by
  by_cases hn : n = 0
  · subst hn
    rfl
  · rw [whole_of_ne hn, whole_of_ne hn]
    rfl

/-- A mantissa that fits is not rounded. -/
theorem shiftToTargetExponent_leadingBits {n : Nat} (hn : n ≠ 0) (hlog : n.log2 ≤ 52) :
    shiftToTargetExponent .binary64 (leadingBits n) (n.log2 - 52) .exact =
      (⟨leadingBits n, false, false⟩, (n.log2 : Int) - 52) := by
  have htarget : Format.binary64.targetExponent (totalExponent (leadingBits n) (n.log2 - 52)) =
      n.log2 - 52 := by
    simp only [Format.targetExponent, totalExponent, log2_leadingBits hn hlog,
      mantissaBits_binary64, Format.minExponent]
    omega
  simp [shiftToTargetExponent, htarget, shiftToExponent, ExtendedMantissa.ofMantissaAndAccuracy,
    HShiftRight.hShiftRight, Nat.repeat]

theorem ofNat_eq_whole {n : Nat} (hlog : n.log2 ≤ 52) :
    UnpackedFloat.ofNat .binary64 n = whole .positive n := by
  by_cases hn : n = 0
  · subst hn
    rfl
  have hpos : compare (n : Int) 0 = .gt := by
    rw [Int.compare_eq_gt]
    omega
  have htarget : Format.binary64.targetExponent (totalExponent n 0) = n.log2 - 52 := by
    simp only [Format.targetExponent, totalExponent, mantissaBits_binary64, Format.minExponent]
    omega
  have hshift : (0 - ((n.log2 : Int) - 52)).toNat = 52 - n.log2 := by omega
  have hexponent : (0 : Int) - (52 - n.log2 : Nat) = n.log2 - 52 := by omega
  rw [UnpackedFloat.ofNat, UnpackedFloat.ofInt, UnpackedFloat.normalize, hpos]
  simp only [UnpackedFloat.round, Int.toNat_natCast, htarget, decreaseExponent, hshift, hexponent,
    Nat.shiftLeft_eq]
  have hrounded : (⟨leadingBits n, false, false⟩ : ExtendedMantissa).roundedMantissa =
      leadingBits n := rfl
  rw [roundWithAccuracy, ← leadingBits, shiftToTargetExponent_leadingBits hn hlog]
  dsimp only
  rw [hrounded, shiftToTargetExponent_leadingBits hn hlog, whole_of_ne hn]
  exact dif_neg (Nat.pos_iff_ne_zero.1 (leadingBits_pos hn))

/-! ## Whole floats in bits -/

theorem unpackSign_packComponents {s : Sign} {e : BitVec 11} {m : BitVec 52} :
    Sign.ofBitVec (unpackSign (packComponents .binary64 s e m)) = s := by
  delta unpackSign
  simp only [packComponents, BitVec.extractLsb]
  rw [BitVec.extractLsb'_append_eq_of_le (by omega),
    BitVec.extractLsb'_append_eq_of_le (by omega)]
  cases s <;> rfl

/-- A whole float is kept exactly. -/
theorem unpack_pack_whole (s : Sign) {n : Nat} (hlog : n.log2 ≤ 52) :
    (Float.Model.pack (whole s n)).unpack = whole s n := by
  by_cases hn : n = 0
  · subst hn
    cases s <;> rfl
  rw [whole_of_ne hn]
  obtain ⟨hlow, hhigh⟩ := leadingBits_bounds hn hlog
  have hbiased : ((n.log2 : Int) - 52 + Format.binary64.exponentBias +
      Format.binary64.mantissaBitsWithoutImplicit).toNat = n.log2 + 1023 := by
    change ((n.log2 : Int) - 52 + (2 ^ (11 - 1) - 1 : Nat) + (52 : Nat)).toNat = _
    omega
  have hexponent : (BitVec.ofNat 11 (n.log2 + 1023)).toNat = n.log2 + 1023 := by
    rw [BitVec.toNat_ofNat, Nat.mod_eq_of_lt]
    omega
  have hfinite : BitVec.ofNat 11 (n.log2 + 1023) ≠ -1#11 := by
    intro heq
    have := hexponent.symm.trans (congrArg BitVec.toNat heq)
    simp at this
    omega
  have hnormal : BitVec.ofNat 11 (n.log2 + 1023) ≠ 0#11 := by
    intro heq
    have := hexponent.symm.trans (congrArg BitVec.toNat heq)
    simp at this
  have hmantissa : (1#1 ++ BitVec.ofNat 52 (leadingBits n)).toNat = leadingBits n := by
    rw [BitVec.toNat_append, ← Nat.shiftLeft_add_eq_or_of_lt (BitVec.ofNat 52 _).isLt,
      BitVec.toNat_ofNat, Nat.shiftLeft_eq]
    simp
    omega
  have hpack : UnpackedFloat.pack .binary64
      (.finite s (leadingBits n) (n.log2 - 52) (leadingBits_pos hn)) =
        packComponents .binary64 s (BitVec.ofNat 11 (n.log2 + 1023))
          (BitVec.ofNat 52 (leadingBits n)) := by
    delta UnpackedFloat.pack
    dsimp only
    simp only [hbiased, log2_leadingBits hn hlog, mantissaBits_binary64]
    rw [if_neg (by omega), if_pos (by simp)]
  change UnpackedFloat.unpack .binary64 (UnpackedFloat.pack .binary64 _) = _
  rw [hpack]
  delta UnpackedFloat.unpack
  dsimp only
  rw [unpackExponent_packComponents, if_neg hfinite, if_neg hnormal]
  have hbias : (Format.binary64.exponentBias : Int) = 1023 := rfl
  have hunbiased : ((n.log2 + 1023 : Nat) : Int) - (1023 + (52 : Nat)) = n.log2 - 52 := by omega
  refine finite_congr unpackSign_packComponents ?_ ?_ _
  · rw [unpackMantissa_packComponents, hmantissa]
  · rw [hexponent, hbias]
    exact hunbiased

/-! ## The order of whole floats -/

theorem compare_leadingBits_of_lt {n m : Nat} (hn : n ≠ 0) (hnm : n < m) :
    (compare ((n.log2 : Int) - 52) (m.log2 - 52)).then (compare (leadingBits n) (leadingBits m)) =
      .lt := by
  have hlog : n.log2 ≤ m.log2 := by
    rw [Nat.le_log2 (by omega)]
    exact Nat.le_trans (Nat.log2_self_le hn) (Nat.le_of_lt hnm)
  rcases Nat.lt_or_eq_of_le hlog with hlt | heq
  · rw [Int.compare_eq_lt.2 (by omega)]
    rfl
  · have hbits : leadingBits n < leadingBits m := by
      unfold leadingBits
      rw [heq]
      exact Nat.mul_lt_mul_of_pos_right hnm (Nat.two_pow_pos _)
    rw [heq, Int.compare_eq_eq.2 rfl, Nat.compare_eq_lt.2 hbits]
    rfl

/-- Floats of one sign are told apart by their exponents, and then by their mantissas. -/
theorem compare_leadingBits {n m : Nat} (hn : n ≠ 0) (hm : m ≠ 0) :
    (compare ((n.log2 : Int) - 52) (m.log2 - 52)).then (compare (leadingBits n) (leadingBits m)) =
      compare n m := by
  rcases Nat.lt_trichotomy n m with hlt | rfl | hgt
  · rw [compare_leadingBits_of_lt hn hlt, Nat.compare_eq_lt.2 hlt]
  · rw [Int.compare_eq_eq.2 rfl, Nat.compare_eq_eq.2 rfl, Nat.compare_eq_eq.2 rfl]
    rfl
  · have hswap := congrArg Ordering.swap (compare_leadingBits_of_lt hm hgt)
    rw [Ordering.swap_then, Int.compare_swap, Nat.compare_swap] at hswap
    rw [hswap, Nat.compare_eq_gt.2 hgt]
    rfl

theorem compare_natCast (n m : Nat) : compare (n : Int) m = compare n m := by
  rcases Nat.lt_trichotomy n m with hlt | rfl | hgt
  · rw [Nat.compare_eq_lt.2 hlt, Int.compare_eq_lt.2 (by omega)]
  · rw [Nat.compare_eq_eq.2 rfl, Int.compare_eq_eq.2 rfl]
  · rw [Nat.compare_eq_gt.2 hgt, Int.compare_eq_gt.2 (by omega)]

theorem compare_neg_neg (a b : Int) : compare (-a) (-b) = (compare a b).swap := by
  rw [Int.compare_swap]
  rcases Int.lt_trichotomy b a with hlt | rfl | hgt
  · rw [Int.compare_eq_lt.2 hlt, Int.compare_eq_lt.2 (by omega)]
  · rw [Int.compare_eq_eq.2 rfl, Int.compare_eq_eq.2 rfl]
  · rw [Int.compare_eq_gt.2 hgt, Int.compare_eq_gt.2 (by omega)]

theorem compare_zero_whole (s s' : Sign) {m : Nat} (hm : m ≠ 0) :
    (whole s 0).compare (whole s' m) = some (compare (s.apply (0 : Nat)) (s'.apply m)) := by
  have hzero : s.apply (0 : Nat) = 0 := by cases s <;> rfl
  rw [whole_of_ne hm, hzero]
  cases s' with
  | negative =>
    rw [Sign.apply, Int.compare_eq_gt.2 (by omega)]
    rfl
  | positive =>
    rw [Sign.apply, Int.compare_eq_lt.2 (by omega)]
    rfl

/-- Whole floats are in the order of the numbers. -/
theorem compare_whole (s s' : Sign) (n m : Nat) :
    (whole s n).compare (whole s' m) = some (compare (s.apply n) (s'.apply m)) := by
  by_cases hn : n = 0
  · subst hn
    by_cases hm : m = 0
    · subst hm
      cases s <;> cases s' <;> rfl
    · exact compare_zero_whole s s' hm
  by_cases hm : m = 0
  · subst hm
    rw [unpacked_compare_swap, compare_zero_whole s' s hn, Option.map_some, Int.compare_swap]
  rw [whole_of_ne hn, whole_of_ne hm]
  cases s with
  | negative =>
    cases s' with
    | negative =>
      rw [Sign.apply, Sign.apply, compare_neg_neg, compare_natCast, ← compare_leadingBits hn hm]
      rfl
    | positive =>
      rw [Sign.apply, Sign.apply, Int.compare_eq_lt.2 (by omega)]
      rfl
  | positive =>
    cases s' with
    | negative =>
      rw [Sign.apply, Sign.apply, Int.compare_eq_gt.2 (by omega)]
      rfl
    | positive =>
      rw [Sign.apply, Sign.apply, compare_natCast, ← compare_leadingBits hn hm]
      rfl

/-! ## Words as floats -/

def wordToFloat (ty : Ty) (v : Int32) : Float :=
  if ty.isUnsigned then v.toUInt32.toFloat else Decimal.ofInt32 v

def wordValue (ty : Ty) (v : Int32) : Int :=
  if ty.isUnsigned then v.toUInt32.toNat else v.toInt

theorem toUInt32_toNat (v : Int32) :
    (v.toUInt32.toNat : Int) = if v.toInt < 0 then v.toInt + 2 ^ 32 else v.toInt := by
  have hcond := BitVec.toInt_eq_toNat_cond v.toBitVec
  have hlt := v.toBitVec.isLt
  change (v.toBitVec.toNat : Int) = if v.toBitVec.toInt < 0 then v.toBitVec.toInt + 2 ^ 32
    else v.toBitVec.toInt
  split at hcond <;> split <;> omega

theorem neg_toUInt32_toNat {v : Int32} (h : v.toInt < 0) :
    ((-v).toUInt32.toNat : Int) = -v.toInt := by
  have hnat := toUInt32_toNat v
  rw [if_pos h] at hnat
  have hneg : (-v).toUInt32.toNat = (2 ^ 32 - v.toUInt32.toNat) % 2 ^ 32 :=
    BitVec.toNat_neg v.toBitVec
  have hge := v.le_toInt
  omega

theorem log2_word_le (u : UInt32) : u.toNat.log2 ≤ 52 := by
  have hlt := u.toNat_lt
  by_cases hzero : u.toNat = 0
  · rw [hzero]
    decide
  · have := (Nat.log2_lt hzero).2 hlt
    omega

theorem unpack_toFloat (u : UInt32) : u.toFloat.toModel.unpack = whole .positive u.toNat := by
  change (Float.Model.pack (UnpackedFloat.ofNat .binary64 u.toNat)).unpack = _
  rw [ofNat_eq_whole (log2_word_le u), unpack_pack_whole _ (log2_word_le u)]

theorem unpack_neg_toFloat (u : UInt32) :
    (-u.toFloat).toModel.unpack = whole .negative u.toNat := by
  change (Float.Model.pack u.toFloat.toModel.unpack.neg).unpack = _
  rw [unpack_toFloat, neg_whole, unpack_pack_whole _ (log2_word_le u)]
  rfl

theorem unpack_wordToFloat (ty : Ty) (v : Int32) :
    ∃ s n, (wordToFloat ty v).toModel.unpack = whole s n ∧ s.apply n = wordValue ty v := by
  unfold wordToFloat wordValue Decimal.ofInt32
  split
  next => exact ⟨_, _, unpack_toFloat _, rfl⟩
  next =>
    split
    next hneg =>
      have hv : v.toInt < 0 := Int32.lt_iff_toInt_lt.1 hneg
      refine ⟨_, _, unpack_neg_toFloat _, ?_⟩
      rw [Sign.apply, neg_toUInt32_toNat hv]
      omega
    next hnonneg =>
      have hv : ¬ v.toInt < 0 := fun h => hnonneg (Int32.lt_iff_toInt_lt.2 h)
      refine ⟨_, _, unpack_toFloat _, ?_⟩
      rw [Sign.apply, toUInt32_toNat, if_neg hv]

/-- Words are in the same order as floats and as numbers. -/
theorem floatOrder_wordToFloat (ty ty' : Ty) (v w : Int32) :
    floatOrder (wordToFloat ty v) (wordToFloat ty' w) =
      some (compare (wordValue ty v) (wordValue ty' w)) := by
  obtain ⟨s, n, hv, hvalue⟩ := unpack_wordToFloat ty v
  obtain ⟨s', m, hw, hvalue'⟩ := unpack_wordToFloat ty' w
  rw [floatOrder, hv, hw, compare_whole, hvalue, hvalue']

end ActorScript
