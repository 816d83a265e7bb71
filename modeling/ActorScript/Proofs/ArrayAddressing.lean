import ActorScript.Proofs.Compiled
import ActorScript.Proofs.ConstantPools
import ActorScript.Proofs.Lowering.Safety
import ActorScript.Proofs.Machine.Values
import ActorScript.Proofs.Machine.Words
import ActorScript.Proofs.Typing.Run

/-! # Elements of arrays

An element at a constant position is found at a distance that is known in advance, and one at a
computed position behind a check and a shift. The position is checked as an unsigned word, and the
check has room for the low sixteen bits of the number of elements only.
-/

namespace ActorScript

open Lowering

/-! ## Positions -/

/-- The number that an integer constant stands for. -/
def Constant.position (c : Constant) : Int :=
  wordValue c.ty c.toInt

/-- A constant passes the check exactly if it is a position of the array, or a negative number
that becomes one as an unsigned word. -/
theorem Constant.passes_iff (c : Constant) (count : Nat) :
    c.toInt.toUInt32.toNat < count ↔
      (0 ≤ c.position ∧ c.position < count) ∨
        (c.position < 0 ∧ c.position + 2 ^ 32 < count) := by
  unfold Constant.position wordValue
  have hword := toUInt32_toNat c.toInt
  split <;> split at hword <;> omega

/-! ## Sizes -/

section Sizes

variable {elem : Ty}

/-- Numbers take one, two, four or eight bytes. -/
theorem Ty.size_of_number (h : elem.bank? = some .int ∨ elem.bank? = some .float) :
    scaleOf elem.size ≤ 3 ∧ elem.size = 2 ^ scaleOf elem.size := by
  cases elem with
  | integer kind => cases kind <;> decide +kernel
  | floating kind => cases kind <;> decide +kernel
  | bool | name | sound | color => decide +kernel
  | error | void | string | state | nullPtr | object | classPtr | struct | array =>
    simp [bank?] at h

/-- The shift multiplies by the size. -/
theorem Shift.sll_word_scaleOf (h : elem.bank? = some .int ∨ elem.bank? = some .float) (v : Int32) :
    Shift.sll.word v (Int32.ofNat (scaleOf elem.size)) = v * Int32.ofNat elem.size := by
  obtain ⟨hle, hsize⟩ := Ty.size_of_number h
  have hamount : (Int32.ofNat (scaleOf elem.size)).toInt % 32 = scaleOf elem.size := by
    rw [Int32.toInt_ofNat_of_lt (by omega)]
    omega
  rw [Shift.word, Typing.foldBits, shiftLeft_eq_mul, hamount, Int.toNat_natCast, ← hsize]

/-- Distances are exact as unsigned words. -/
theorem toUInt32_mul_size {v : Int32} {size : Nat} (h : v.toUInt32.toNat * size < 2 ^ 32) :
    (v * Int32.ofNat size).toUInt32.toNat = v.toUInt32.toNat * size := by
  have hmul : (v * Int32.ofNat size).toUInt32 = v.toUInt32 * UInt32.ofNat size := rfl
  rw [hmul, UInt32.toNat_mul, UInt32.toNat_ofNat', Nat.mul_mod_mod, Nat.mod_eq_of_lt h]

/-- A distance is kept as a signed word, and read right below the middle of the range. -/
theorem Constant.distance_iff {c : Constant} {size count : Nat} (hsize : size * count < 2 ^ 32)
    (hlow : 0 ≤ c.position) (hhigh : c.position < count) :
    ((c.toInt * Int32.ofNat size).toUInt32.toNat : Int) = c.position * size ∧
      ((c.toInt * Int32.ofNat size).toInt = c.position * size ↔ c.position * size < 2 ^ 31) := by
  have hword : (c.toInt.toUInt32.toNat : Int) = c.position := by
    unfold Constant.position wordValue at hlow ⊢
    have hword := toUInt32_toNat c.toInt
    split at hlow <;> split at hword <;> simp_all
    omega
  have hproduct : c.toInt.toUInt32.toNat * size < 2 ^ 32 := by
    have hlt : c.toInt.toUInt32.toNat < count := by omega
    calc c.toInt.toUInt32.toNat * size ≤ count * size := Nat.mul_le_mul_right size hlt.le
      _ = size * count := Nat.mul_comm ..
      _ < 2 ^ 32 := hsize
  have hexact := toUInt32_mul_size hproduct
  have hcases := toUInt32_toNat (c.toInt * Int32.ofNat size)
  have hsigned : ((c.toInt * Int32.ofNat size).toUInt32.toNat : Int) = c.position * size := by
    rw [hexact, Int.natCast_mul, hword]
  have hlow' := (c.toInt * Int32.ofNat size).le_toInt
  have hhigh' := (c.toInt * Int32.ofNat size).toInt_lt
  refine ⟨hsigned, ?_⟩
  split at hcases <;> omega

end Sizes

/-! ## Code -/

/-- The instruction that takes the value or the address of an element, some distance behind the
start of its array. -/
def accessing (byAddress : Bool) (elem : Ty) (pooled : Bool) (out start : Place)
    (distance : Operand) : Instr :=
  .abc (if byAddress then .commuting .adda pooled else .load (.ofTy elem) (!pooled)) out.operand
    start.operand distance

def scaling (size : Nat) (index : Place) : List Instr :=
  if scaleOf size > 0 then
    [.abc (.shift .sll .rk) index.operand index.operand (.imm (scaleOf size))]
  else []

namespace Draft

/-- Code that takes an element at a distance in the pool, which none is needed for if the distance
is zero and the address is asked for. -/
def TakesAt (d d' : Draft) (byAddress : Bool) (elem : Ty) (start p : Place) (distance : Int32) :
    Prop :=
  (byAddress = true ∧ distance = 0 ∧ p = start ∧ d'.code = d.code) ∨
    ∃ k, d'.code = d.code ++ [accessing byAddress elem true p start (.pool (some .int) k)] ∧
      (d'.pools.ints.entries.size ≤ 65536 → d'.pools.ints.entries[k]? = some distance)

/-- Code that checks a position against a bound, scales it and takes an element there. -/
def TakesScaled (d d' : Draft) (byAddress : Bool) (elem : Ty) (start p index : Place)
    (bound : Nat) : Prop :=
  d'.code = d.code ++ .abx .bound index.operand (.imm bound) ::
    (scaling elem.size index ++ [accessing byAddress elem false p start index.operand])

theorem ints_indexOf (d : Draft) (v : Int32)
    (h : (d.store (.int v)).pools.ints.entries.size ≤ 65536) :
    (d.store (.int v)).pools.ints.entries[d.indexOf (.int v)]? = some v := by
  have hpool : (d.store (.int v)).pools.ints = (d.pools.ints.intern v).2 := rfl
  obtain ⟨k, hk, hfound⟩ := d.pools.ints.intern_found v
  rw [hpool] at h ⊢
  have hlt := (Array.getElem?_eq_some_iff.1 hfound).1
  have hindex : d.indexOf (.int v) = k := hk.trans (Nat.mod_eq_of_lt (Nat.lt_of_lt_of_le hlt h))
  rw [hindex, hfound]

end Draft

section Lowered

variable {t : Target} {d d' : Draft} {start p : Place} {elem : Ty} {byAddress : Bool}

theorem constantElement_takesAt {index : Int32}
    (h : Yields t (constantElement byAddress elem start index) d p d') :
    d.TakesAt d' byAddress elem start p (index * Int32.ofNat elem.size) := by
  simp only [constantElement, yields_bind, yields_pooledInt] at h
  obtain ⟨_, d1, ⟨rfl, rfl⟩, h⟩ := h
  cases byAddress with
  | true =>
    simp only [if_true] at h
    split at h
    · next hzero =>
      obtain ⟨rfl, rfl⟩ := yields_pure.1 h
      exact .inl ⟨rfl, hzero, rfl, rfl⟩
    · simp only [addressPast, yields_bind, yields_free, yields_alloc, yields_pooledInt, yields_emit,
        yields_pure] at h
      obtain ⟨_, _, ⟨-, rfl⟩, _, _, ⟨_, n, hb, -, rfl, rfl⟩, h⟩ := h
      obtain ⟨_, _, ⟨rfl, rfl⟩, _, _, ⟨-, rfl⟩, rfl, rfl⟩ := h
      cases hb
      refine .inr ⟨_, ?_, fun hsmall => Draft.ints_indexOf _ _ hsmall⟩
      simp [accessing]
  | false =>
    simp only [Bool.false_eq_true, if_false, yields_bind, yields_alloc, yields_emit, yields_free,
      yields_pure] at h
    obtain ⟨_, _, ⟨b, n, hty, -, rfl, rfl⟩, _, _, ⟨-, rfl⟩, _, _, ⟨-, rfl⟩, rfl, rfl⟩ := h
    refine .inr ⟨d.indexOf (.int (index * Int32.ofNat elem.size)), by simp [accessing],
      fun hsmall => ?_⟩
    rw [Draft.pools_drop] at hsmall ⊢
    exact d.ints_indexOf _ hsmall

variable {count : Nat} {index : Place}

def checking (size count : Nat) (index : Place) : List Instr :=
  .abx .bound index.operand (.imm (count % 65536)) :: scaling size index

/-- The check and the shift are made unless the register is out of reach. -/
theorem yields_scaleIndex_iff (h : scaleOf elem.size ≤ 255) {u : Unit} :
    Yields t (scaleIndex elem.size count index) d u d' ↔
      index.number ≤ 255 ∧ d' = d.pushAll (checking elem.size count index) := by
  simp only [scaleIndex, yields_bind, yields_emitWide, checking, scaling]
  split
  · simp only [yields_emit, Place.value_operand]
    constructor
    · rintro ⟨_, _, ⟨hle, rfl⟩, -, rfl⟩
      exact ⟨hle, rfl⟩
    · rintro ⟨hle, rfl⟩
      exact ⟨(), _, ⟨hle, rfl⟩, ⟨hle, hle, h⟩, rfl⟩
  · simp only [yields_pure, Place.value_operand]
    constructor
    · rintro ⟨_, _, ⟨hle, rfl⟩, -, rfl⟩
      exact ⟨hle, rfl⟩
    · rintro ⟨hle, rfl⟩
      exact ⟨(), _, ⟨hle, rfl⟩, trivial, rfl⟩

variable {y : Lowering Place} [Safe y]

theorem computedElement_takesScaled (h : scaleOf elem.size ≤ 255)
    (hy : Yields t (computedElement byAddress elem count start y) d p d') :
    ∃ index d1, Yields t (y >>= toScratch) d index d1 ∧
      d1.TakesScaled d' byAddress elem start p index (count % 65536) := by
  simp only [computedElement, yields_bind, yields_scaleIndex_iff h] at hy
  obtain ⟨i0, d0, hi, index, d1, hscratch, _, d2, ⟨-, rfl⟩, hrest⟩ := hy
  refine ⟨index, d1, yields_bind.2 ⟨i0, d0, hi, hscratch⟩, ?_⟩
  cases byAddress with
  | true =>
    simp only [if_true, yields_bind, yields_alloc, yields_emit, yields_free, yields_pure] at hrest
    obtain ⟨_, _, ⟨-, rfl⟩, _, _, ⟨-, rfl⟩, _, _, ⟨b, n, hb, -, rfl, rfl⟩, hrest⟩ := hrest
    obtain ⟨_, _, ⟨-, rfl⟩, rfl, rfl⟩ := hrest
    cases hb
    simp [Draft.TakesScaled, accessing, checking]
  | false =>
    simp only [Bool.false_eq_true, if_false, yields_bind, yields_alloc, yields_emit, yields_free,
      yields_pure] at hrest
    obtain ⟨_, _, ⟨b, n, hb, -, rfl, rfl⟩, _, _, ⟨-, rfl⟩, _, _, ⟨-, rfl⟩, hrest⟩ := hrest
    obtain ⟨_, _, ⟨-, rfl⟩, rfl, rfl⟩ := hrest
    simp [Draft.TakesScaled, accessing, checking]

end Lowered

/-- Running the shift makes a distance of a position, and changes nothing else. -/
theorem scaling_fills {elem : Ty} (h : elem.bank? = some .int ∨ elem.bank? = some .float)
    {P : Program} {k : Nat} {index : Place} (hcode : P.Has k (scaling elem.size index))
    (r : Registers) :
    P.Fills k (scaling elem.size index) r index.number
      (.word (r.word index.number * Int32.ofNat elem.size)) := by
  have hshift := Shift.sll_word_scaleOf h (r.word index.number)
  unfold scaling at hcode ⊢
  split at hcode
  · next hpos =>
    rw [if_pos hpos]
    refine Program.fills_word hcode ?_
    change some (r.setWord index.operand.value (Shift.sll.word (r.word index.operand.value)
      (Int32.ofNat (scaleOf elem.size))), 1) = _
    rw [Place.value_operand, hshift]
  · next hzero =>
    have hsize := (Ty.size_of_number h).2
    rw [Nat.eq_zero_of_not_pos hzero] at hsize
    rw [if_neg hzero, hsize]
    exact ⟨r, .done, fun S _ => .refl S r, (Int32.mul_one _).symm⟩

/-! ## Typing -/

namespace Typing

variable {σ : Setting} {s : Scope} {span : Span} {array array' index : Expr} {elem : Ty}
  {count : Nat} {writable : Bool}

theorem ty_of_addressOf? {e : Expr} (h : e.addressOf? = some (writable, array')) :
    array'.ty = e.ty := by
  cases e with
  | localVar | field | assign =>
    cases h
    rfl
  | element m array index =>
    obtain ⟨p, -, hp⟩ := Option.map_eq_some_iff.1 h
    cases hp
    rfl
  | step m op before operand =>
    cases before <;> cases h
    rfl
  | _ => cases h

/-- An array of numbers has an element at every position that passes the check. -/
theorem elementOf_run (harray : array.ty = .array elem count)
    (haddress : array.addressOf? = some (writable, array'))
    (helem : elem.bank? = some .int ∨ elem.bank? = some .float)
    (hindex : index.ty.bank? = some .int) :
    (elementOf span array index).runFrom σ s =
      (if index.constant?.any fun c => count ≤ c.toInt.toUInt32.toNat then
        .error { fault := .arrayIndexRange, span }
      else .ok (.element (Expr.settled span elem) array' index), s) := by
  have hfloat : index.ty.isFloat = false := by
    cases hty : index.ty <;> simp_all [Ty.bank?, Ty.isFloat]
  simp only [elementOf, hfloat, Bool.false_eq_true, if_false, elementAt, hindex, ne_eq,
    not_true_eq_false, harray, haddress]
  split
  · rfl
  · rcases helem with helem | helem <;> simp [helem]

end Typing

/-- How the elements of an array of numbers are found.

A constant position is accepted if it is one of the array as an unsigned word, which a negative
number can be too if there are more than 2 ^ 31 elements. Its distance is exact as an unsigned
word, and as a signed one below 2 ^ 31.

A computed position is checked against the low sixteen bits of the number of elements, whatever
the number is, and then made a distance that is exact for all positions of the array. -/
theorem array_addressing {array array' : Expr} {elem : Ty} {count : Nat} {writable : Bool}
    (harray : array.ty = .array elem count)
    (haddress : array.addressOf? = some (writable, array'))
    (helem : elem.bank? = some .int ∨ elem.bank? = some .float)
    (hsize : elem.size * count < 2 ^ 32) (σ : Setting) (s : Scope) (span : Span) (m : Mark)
    (t : Target) :
    (∀ (here : Span) (c : Constant), c.ty.bank? = some .int →
      (Typing.elementOf span array (.ofConstant here c)).runFrom σ s =
        (if (0 ≤ c.position ∧ c.position < count) ∨
            (c.position < 0 ∧ c.position + 2 ^ 32 < count) then
          .ok (.element (Expr.settled span elem) array' (.ofConstant here c))
        else .error { fault := .arrayIndexRange, span }, s) ∧
      (∀ d p d', Yields t (Expr.element m array' (.ofConstant here c)).lower d p d' →
        ∃ start d₁, Yields t (array'.lower >>= toRegister) d start d₁ ∧
          d₁.TakesAt d' m.byAddress elem start p (c.toInt * Int32.ofNat elem.size)) ∧
      (0 ≤ c.position → c.position < count →
        ((c.toInt * Int32.ofNat elem.size).toUInt32.toNat : Int) = c.position * elem.size ∧
        ((c.toInt * Int32.ofNat elem.size).toInt = c.position * elem.size ↔
          c.position * elem.size < 2 ^ 31))) ∧
    ∀ index : Expr, index.ty.bank? = some .int → index.constant? = none →
      (Typing.elementOf span array index).runFrom σ s =
        (.ok (.element (Expr.settled span elem) array' index), s) ∧
      (∀ d p d', Yields t (Expr.element m array' index).lower d p d' →
        ∃ start d₁ i d₂, Yields t (array'.lower >>= toRegister) d start d₁ ∧
          Yields t (index.lower >>= toScratch) d₁ i d₂ ∧
          d₂.TakesScaled d' m.byAddress elem start p i (count % 65536)) ∧
      (∀ d i u d', Yields t (scaleIndex elem.size count i) d u d' ↔
        i.number ≤ 255 ∧ d' = d.pushAll (checking elem.size count i)) ∧
      ∀ (P : Program) (k : Nat) (i : Place) (r : Registers), P.Has k (scaling elem.size i) →
        ∃ distance, P.Fills k (scaling elem.size i) r i.number (.word distance) ∧
          ((r.word i.number).toUInt32.toNat < count →
            distance.toUInt32.toNat = (r.word i.number).toUInt32.toNat * elem.size) := by
  have hscale : scaleOf elem.size ≤ 255 := Nat.le_trans (Ty.size_of_number helem).1 (by decide)
  have hty : array'.ty = .array elem count := (Typing.ty_of_addressOf? haddress).trans harray
  refine ⟨fun here c hc => ⟨?_, ?_, Constant.distance_iff hsize⟩,
    fun index hint hindex => ⟨?_, ?_, fun d i u d' => yields_scaleIndex_iff hscale, ?_⟩⟩
  · have hint : (Expr.ofConstant here c).ty.bank? = some .int := hc
    rw [Typing.elementOf_run harray haddress helem hint]
    have hpasses := c.passes_iff count
    by_cases hpass : c.toInt.toUInt32.toNat < count
    · rw [if_pos (hpasses.1 hpass), if_neg]
      simpa [Expr.ofConstant, Expr.constant?] using hpass
    · rw [if_neg fun h => hpass (hpasses.2 h), if_pos]
      simpa [Expr.ofConstant, Expr.constant?] using hpass
  · intro d p d' h
    change Yields t (Lowering.element m.byAddress array'.ty (some c) array'.lower _) d p d' at h
    rw [hty, element, yields_bind] at h
    obtain ⟨p₀, d₀, harray', h⟩ := h
    obtain ⟨start, d₁, hstart, h⟩ := yields_bind.1 h
    exact ⟨start, d₁, yields_bind.2 ⟨p₀, d₀, harray', hstart⟩, constantElement_takesAt h⟩
  · rw [Typing.elementOf_run harray haddress helem hint, hindex]
    rfl
  · intro d p d' h
    change Yields t (Lowering.element m.byAddress array'.ty index.constant? array'.lower
      index.lower) d p d' at h
    rw [hty, hindex, element, yields_bind] at h
    obtain ⟨p₀, d₀, harray', h⟩ := h
    obtain ⟨start, d₁, hstart, h⟩ := yields_bind.1 h
    obtain ⟨i, d₂, hi, htakes⟩ := computedElement_takesScaled hscale h
    exact ⟨start, d₁, i, d₂, yields_bind.2 ⟨p₀, d₀, harray', hstart⟩, hi, htakes⟩
  · intro P k i r hcode
    refine ⟨_, scaling_fills helem hcode r, fun hlt => toUInt32_mul_size ?_⟩
    calc (r.word i.number).toUInt32.toNat * elem.size ≤ count * elem.size :=
          Nat.mul_le_mul_right _ hlt.le
      _ = elem.size * count := Nat.mul_comm ..
      _ < 2 ^ 32 := hsize

/-- The last of five words is sixteen bytes behind the first. -/
theorem array_addressing_last :
    let self : Expr := .selfRef (Expr.settled Span.zero (.object 0))
    let array : Expr := .field (Expr.settled ⟨0, 4⟩ (.array .int 5)) self 8 false
    let σ : Setting := .ofOptions {} {} true
    (Typing.elementOf ⟨0, 7⟩ array (.ofConstant ⟨5, 6⟩ (.int 4))).runFrom σ {} =
        (.ok (.element (Expr.settled ⟨0, 7⟩ .int) array.requestAddress
          (.ofConstant ⟨5, 6⟩ (.int 4))), {}) ∧
      ((4 : Int32) * Int32.ofNat 4).toInt = 16 ∧
      ∀ d i u d', Yields ⟨{}, .method⟩ (scaleIndex 4 5 i) d u d' ↔
        i.number ≤ 255 ∧ d' = d.pushAll (checking 4 5 i) := by
  intro self array σ
  have harray : array.ty = .array .int 5 := rfl
  have haddress : array.addressOf? = some (true, array.requestAddress) := rfl
  have hsize : Ty.int.size * 5 < 2 ^ 32 := by decide
  obtain ⟨hconstant, hcomputed⟩ := array_addressing harray haddress (.inl rfl) hsize σ {} ⟨0, 7⟩
    (Expr.settled ⟨0, 7⟩ .int) ⟨{}, .method⟩
  obtain ⟨hrun, -, hdistance⟩ := hconstant ⟨5, 6⟩ (.int 4) rfl
  have hposition : Constant.position (.int 4) = 4 := rfl
  rw [hposition] at hrun hdistance
  refine ⟨hrun, (hdistance (by decide) (by decide)).2.2 (by decide), ?_⟩
  exact (hcomputed (.localVar (Expr.settled ⟨5, 6⟩ .int) 0) rfl rfl).2.2.1

/-- The position in an array of 65536 words is checked against zero, and the function compiles. -/
theorem large_array_bound_lost :
    let w : World := { classes := #[{ name := "Chest", size := 262144, members := [("big", .field
      { name := "big", ty := .array .int 65536, offset := 0, flags := {} })] }] }
    let o : Options := { kind := .method, cls := some 0 }
    (instructionsOf w o "int i; big[i];").any
        (·.contains (.abx .bound (.reg (some .int) 1) (.imm 0))) = true ∧
      ((parseBody "int i; big[i];").toOption.bind fun body =>
        (compileFunction w o [] body).toOption).isSome = true := by
  decide +kernel

end ActorScript
