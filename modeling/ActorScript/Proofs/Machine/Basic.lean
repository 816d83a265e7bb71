import ActorScript.Proofs.Lowering.Contract
import ActorScript.Typing.Operation

/-! # The machine of numbers

What instructions on integers and floats do to the registers and where control goes from them.
A comparison skips the instruction behind it when its outcome is not the one that its first
operand asks for. Arithmetic is that of constants, and a division by zero is stuck.
-/

namespace ActorScript

/-! ## Registers -/

structure Registers where
  word : Nat → Int32
  float : Nat → Float

namespace Registers

def setWord (r : Registers) (n : Nat) (v : Int32) : Registers :=
  { r with word := fun m => if m = n then v else r.word m }

def setFloat (r : Registers) (n : Nat) (v : Float) : Registers :=
  { r with float := fun m => if m = n then v else r.float m }

section

variable (r : Registers) (n m : Nat)

@[simp] theorem word_setWord (v : Int32) :
    (r.setWord n v).word m = if m = n then v else r.word m := rfl
@[simp] theorem float_setWord (v : Int32) : (r.setWord n v).float = r.float := rfl
@[simp] theorem float_setFloat (v : Float) :
    (r.setFloat n v).float m = if m = n then v else r.float m := rfl
@[simp] theorem word_setFloat (v : Float) : (r.setFloat n v).word = r.word := rfl

end

/-- The word that an operation reads, from a register or from the pool. -/
def wordAt (r : Registers) (pools : Pools) (pooled : Bool) (n : Nat) : Option Int32 :=
  if pooled then pools.ints.entries[n]? else some (r.word n)

def floatAt (r : Registers) (pools : Pools) (pooled : Bool) (n : Nat) : Option Float :=
  if pooled then pools.floats.entries[n]?.map Float.ofBits else some (r.float n)

/-- The same numbers in some registers. -/
structure Agree (S : Set Register) (r r' : Registers) : Prop where
  word : ∀ n, (.int, n) ∈ S → r'.word n = r.word n
  float : ∀ n, (.float, n) ∈ S → r'.float n = r.float n

namespace Agree

variable {S T : Set Register} {r r1 r2 : Registers}

theorem refl (S : Set Register) (r : Registers) : Agree S r r :=
  ⟨fun _ _ => rfl, fun _ _ => rfl⟩

theorem trans (h : Agree S r r1) (h' : Agree S r1 r2) : Agree S r r2 where
  word n hn := (h'.word n hn).trans (h.word n hn)
  float n hn := (h'.float n hn).trans (h.float n hn)

theorem mono (h : Agree S r r1) (hST : T ⊆ S) : Agree T r r1 where
  word n hn := h.word n (hST hn)
  float n hn := h.float n (hST hn)

theorem setWord {n : Nat} (hn : (.int, n) ∉ S) (v : Int32) : Agree S r (r.setWord n v) where
  word m hm := by
    rw [word_setWord, if_neg]
    rintro rfl
    exact hn hm
  float _ _ := rfl

theorem setFloat {n : Nat} (hn : (.float, n) ∉ S) (v : Float) : Agree S r (r.setFloat n v) where
  word _ _ := rfl
  float m hm := by
    rw [float_setFloat, if_neg]
    rintro rfl
    exact hn hm

end Agree

end Registers

/-! ## Instructions -/

def Form.leftPooled : Form → Bool
  | .kr => true
  | .rr | .rk => false

def Form.rightPooled : Form → Bool
  | .rk => true
  | .rr | .kr => false

def Commuting.word? : Commuting → Option (Int32 → Int32 → Int32)
  | add => some (Typing.intArithmetic .add)
  | mul => some (Typing.intArithmetic .mul)
  | and => some (Typing.foldBits .bitAnd)
  | or => some (Typing.foldBits .bitOr)
  | xor => some (Typing.foldBits .bitXor)
  | min | max | addf | mulf | minf | maxf | adda => none

def unsignedArithmetic (op : BinOp) (a b : Int32) : Int32 :=
  (Typing.wordArithmetic op a.toUInt32 b.toUInt32).toInt32

def Ordered.word? (op : Ordered) (a b : Int32) : Option Int32 :=
  match op with
  | sub => some (Typing.intArithmetic .sub a b)
  | div => if b = 0 then none else some (Typing.intArithmetic .div a b)
  | mod => if b = 0 then none else some (Typing.intArithmetic .mod a b)
  | divu => if b = 0 then none else some (unsignedArithmetic .div a b)
  | modu => if b = 0 then none else some (unsignedArithmetic .mod a b)
  | subf | divf | modf | powf => none

def Shift.word : Shift → Int32 → Int32 → Int32
  | sll => Typing.foldBits .shl
  | srl => Typing.foldBits .ushr
  | sra => Typing.foldBits .shr

def Relation.ofWords (relation : Relation) (a b : Int32) : Bool :=
  match relation with
  | lt => a < b
  | le => a ≤ b

def Relation.ofUnsigned (relation : Relation) (a b : Int32) : Bool :=
  match relation with
  | lt => a.toUInt32 < b.toUInt32
  | le => a.toUInt32 ≤ b.toUInt32

def Relation.ofFloats (relation : Relation) (a b : Float) : Bool :=
  match relation with
  | lt => a < b
  | le => a ≤ b

/-- Floats that are nearer to each other than anything tells apart. -/
def nearlyEqual (a b : Float) : Bool :=
  (a - b).abs < Typing.tolerance

/-- The outcome of a comparison, whose first operand says whether near floats count as equal. -/
def Op.outcome? (op : Op) (pools : Pools) (r : Registers) (check b c : Nat) : Option Bool :=
  match op with
  | .equal .word constant =>
      (r.wordAt pools constant c).map fun v => r.word b == v
  | .equal .float constant =>
      (r.floatAt pools constant c).map fun y =>
        if check / 2 % 2 = 1 then nearlyEqual (r.float b) y else r.float b == y
  | .compare relation .signed form =>
      (r.wordAt pools form.leftPooled b).bind fun x =>
        (r.wordAt pools form.rightPooled c).map fun y => relation.ofWords x y
  | .compare relation .unsigned form =>
      (r.wordAt pools form.leftPooled b).bind fun x =>
        (r.wordAt pools form.rightPooled c).map fun y => relation.ofUnsigned x y
  | .compare relation .float form =>
      (r.floatAt pools form.leftPooled b).bind fun x =>
        (r.floatAt pools form.rightPooled c).map fun y => relation.ofFloats x y
  | _ => none

namespace Instr

/-- The way to the next instruction, with one skipped unless the outcome is the one asked for. -/
def skipUnless (outcome : Bool) (check : Nat) : Int :=
  if outcome = decide (check % 2 = 1) then 1 else 2

/-- Three operands: the registers afterwards, and the way to the next instruction. -/
def stepThree? (op : Op) (pools : Pools) (r : Registers) (a b c : Nat) :
    Option (Registers × Int) :=
  match op with
  | .test => some (r, if r.word a = Int32.ofNat b then 1 else 2)
  | .move .int => some (r.setWord a (r.word b), 1)
  | .move .float => some (r.setFloat a (r.float b), 1)
  | .cast =>
      match c with
      | 1 => some (r.setFloat a (Decimal.ofInt32 (r.word b)), 1)
      | 2 => some (r.setFloat a (r.word b).toUInt32.toFloat, 1)
      | _ => none
  | .shift op .rk => some (r.setWord a (op.word (r.word b) (Int32.ofNat c)), 1)
  | .shift op form =>
      (r.wordAt pools form.leftPooled b).map fun x => (r.setWord a (op.word x (r.word c)), 1)
  | .commuting op constant =>
      op.word?.bind fun f =>
        (r.wordAt pools constant c).map fun y => (r.setWord a (f (r.word b) y), 1)
  | .ordered op form =>
      (r.wordAt pools form.leftPooled b).bind fun x =>
        (r.wordAt pools form.rightPooled c).bind fun y =>
          (op.word? x y).map fun v => (r.setWord a v, 1)
  | .abs => some (r.setWord a (if r.word b < 0 then -r.word b else r.word b), 1)
  | .neg => some (r.setWord a (-r.word b), 1)
  | .not => some (r.setWord a (~~~r.word b), 1)
  | .equal .. | .compare .. => (op.outcome? pools r a b c).map fun o => (r, skipUnless o a)
  | _ => none

/-- What an instruction does to the registers, and the way from it to the next. -/
def step? (i : Instr) (pools : Pools) (r : Registers) : Option (Registers × Int) :=
  match i with
  | .abc op a b c => stepThree? op pools r a.value b.value c.value
  | .abx (.lk .int) a bx => pools.ints.entries[bx.value]?.map fun v => (r.setWord a.value v, 1)
  | .abx (.lk .float) a bx =>
      pools.floats.entries[bx.value]?.map fun bits => (r.setFloat a.value (.ofBits bits), 1)
  | .abx .. => none
  | .asbx .jmp _ offset => some (r, 1 + offset)
  | .asbx .li a v => some (r.setWord a.value (Int32.ofInt v), 1)
  | .asbx .. => none

end Instr

/-! ## Programs -/

structure Program where
  code : List Instr
  pools : Pools

namespace Program

/-- Some code stands in a program at a position. -/
def Has (P : Program) (k : Nat) (seg : List Instr) : Prop :=
  ∀ j < seg.length, P.code[k + j]? = seg[j]?

section Has

variable {P : Program} {k : Nat} {i : Instr} {seg seg' : List Instr}

@[simp]
theorem has_nil : P.Has k [] := by
  simp [Has]

@[simp]
theorem has_cons : P.Has k (i :: seg) ↔ P.code[k]? = some i ∧ P.Has (k + 1) seg := by
  constructor
  · intro h
    refine ⟨by simpa using h 0 (by simp), fun j hj => ?_⟩
    have hnext := h (j + 1) (by simpa using hj)
    rw [Nat.add_assoc, Nat.add_comm 1 j, hnext, List.getElem?_cons_succ]
  · rintro ⟨hi, hseg⟩ j hj
    cases j with
    | zero => simpa using hi
    | succ j =>
      rw [List.getElem?_cons_succ, ← hseg j (by simpa using hj), Nat.add_assoc, Nat.add_comm 1 j]

theorem has_append : P.Has k (seg ++ seg') ↔ P.Has k seg ∧ P.Has (k + seg.length) seg' := by
  induction seg generalizing k with
  | nil => simp
  | cons i rest ih =>
    have hlen : k + 1 + rest.length = k + (i :: rest).length := by
      rw [List.length_cons]
      omega
    rw [List.cons_append, has_cons, has_cons, ih, and_assoc, hlen]

end Has

/-- Steps of a program at positions within `at`, from one position and contents of the registers
to others. -/
inductive Runs (P : Program) (within : Set Nat) : Nat → Registers → Nat → Registers → Prop
  | done {k : Nat} {r : Registers} : Runs P within k r k r
  | step {k l m : Nat} {i : Instr} {way : Int} {r r₁ r₂ : Registers} :
      k ∈ within → P.code[k]? = some i → i.step? P.pools r = some (r₁, way) → (l : Int) = k + way →
      Runs P within l r₁ m r₂ → Runs P within k r m r₂

namespace Runs

variable {P : Program} {A B : Set Nat} {k l m : Nat} {r r1 r2 : Registers}

theorem trans (h : P.Runs A k r l r1) (h' : P.Runs A l r1 m r2) : P.Runs A k r m r2 := by
  induction h with
  | done => exact h'
  | step hk hi hstep hl _ ih => exact .step hk hi hstep hl (ih h')

theorem mono (h : P.Runs A k r l r1) (hAB : A ⊆ B) : P.Runs B k r l r1 := by
  induction h with
  | done => exact .done
  | step hk hi hstep hl _ ih => exact .step (hAB hk) hi hstep hl ih

end Runs

end Program

end ActorScript
