import ActorScript.Bytecode.Opcode

/-! # Instructions and their words

An instruction keeps where each operand came from. Its word packs the code of the
operation into the top eight bits, the first operand into the next eight, and the rest
into the low sixteen, either as two bytes or as one field, which may be signed.
-/

namespace ActorScript

inductive Operand where
  | reg (bank? : Option Bank) (number : Nat)
  | pool (bank? : Option Bank) (index : Nat)
  | imm (value : Nat)
  deriving DecidableEq, Repr, Inhabited

def Operand.value : Operand → Nat
  | .reg _ number => number
  | .pool _ index => index
  | .imm value => value

inductive Instr where
  | abc (op : Op) (a b c : Operand)
  | abx (op : Op) (a bx : Operand)
  | asbx (op : Op) (a : Operand) (offset : Int)
  deriving DecidableEq, Repr

instance : Inhabited Instr := ⟨.abc .nop (.imm 0) (.imm 0) (.imm 0)⟩

namespace Instr

def op : Instr → Op
  | abc op .. | abx op .. | asbx op .. => op

def first : Instr → Operand
  | abc _ a .. | abx _ a .. | asbx _ a .. => a

/-- The low sixteen bits of the word. -/
def low : Instr → Nat
  | abc _ _ b c => b.value % 256 * 256 + c.value % 256
  | abx _ _ bx => bx.value % 65536
  | asbx _ _ offset => (offset % 65536).toNat

def encode (i : Instr) : UInt32 :=
  UInt32.ofNat (i.op.code % 256 * 0x1000000 + i.first.value % 256 * 0x10000 + i.low)

/-- The same operation and first operand, with a signed low field. -/
def withOffset (i : Instr) (offset : Int) : Instr :=
  asbx i.op i.first offset

end Instr

/-- A signed field of sixteen bits can hold the value. -/
def fitsOffset (value : Int) : Bool :=
  -32768 ≤ value && value ≤ 32767

/-! Fields of an instruction word. -/

namespace Word

def code (w : UInt32) : Nat := w.toNat / 0x1000000

def op (w : UInt32) : Op := .ofCode (code w)

def a (w : UInt32) : Nat := w.toNat / 0x10000 % 256

def b (w : UInt32) : Nat := w.toNat / 256 % 256

def c (w : UInt32) : Nat := w.toNat % 256

def bx (w : UInt32) : Nat := w.toNat % 65536

def offset (w : UInt32) : Int := (bx w : Int).bmod 65536

end Word

end ActorScript
