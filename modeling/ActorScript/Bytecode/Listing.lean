import ActorScript.Decimal.Layout
import ActorScript.Text.Quoted
import ActorScript.Bytecode.Instruction
import ActorScript.Bytecode.Chunk

/-! # Listings

The text of a chunk: one line for each instruction, with the constants it refers to
written beside their positions.
-/

namespace ActorScript

def Pooled.describe : Pooled → String
  | null => "null"
  | state id label => s!"state {label}#{id}"
  | cls name => s!"class {name}"
  | native service => service.symbol
  | function name => name
  | generator name => if name.isEmpty then "rng <default>" else s!"rng {name}"

namespace Chunk

def constantText? (chunk : Chunk) (bank : Bank) (index : Nat) : Option String :=
  match bank with
  | .int => (chunk.ints[index]?).map fun value => toString value.toInt
  | .float => (chunk.floats[index]?).map fun bits => Decimal.Layout.listing.format (.ofBits bits)
  | .string => (chunk.strings[index]?).map Text.quoted
  | .pointer => (chunk.addresses[index]?).map Pooled.describe

/-- A position in a constant pool, followed by the constant if the pool has one there. -/
def constantOperand (chunk : Chunk) (bank : Bank) (index : Nat) : String :=
  match chunk.constantText? bank index with
  | some text => s!"k{index}({text})"
  | none => s!"k{index}"

def taggedOperand (chunk : Chunk) (tag number : Nat) : String :=
  if tag = 8 then "nil"
  else
    let bank := match tag % 4 with
      | 0 => Bank.int
      | 1 => .float
      | 2 => .string
      | _ => .pointer
    if tag / 4 % 2 = 1 then chunk.constantOperand bank number
    else bank.letter ++ toString number

end Chunk

/-- Position of an instruction, in at least four characters. -/
def positionText (position : Int) : String :=
  let digits := toString position.natAbs
  if position < 0 then "-" ++ Text.padLeft 3 '0' digits
  else Text.padLeft 4 '0' digits

namespace Chunk

def operandText (chunk : Chunk) (position : Nat) (w : UInt32) : String :=
  let a := Word.a w
  let b := Word.b w
  let c := Word.c w
  match Word.op w with
  | .jmp =>
      let offset := Word.offset w
      let sign := if offset < 0 then "" else "+"
      let target := positionText (position + 1 + offset)
      s!"{sign}{offset} -> {target}"
  | .li | .parami | .reti =>
      let value := Word.offset w
      s!"{a}, {value}"
  | .lk bank =>
      let letter := bank.letter
      let constant := chunk.constantOperand bank (Word.bx w)
      s!"{letter}{a}, {constant}"
  | .param | .result => chunk.taggedOperand a (Word.bx w)
  | .test | .bound | .ijmp =>
      let value := Word.bx w
      s!"d{a}, {value}"
  | .ret =>
      let slot := if a / finalReturn % 2 = 1 then "final" else toString a
      let value := chunk.taggedOperand b c
      s!"{slot}, {value}"
  | .callK | .tailK =>
      let callee := chunk.constantOperand .pointer a
      s!"{callee}, {b}, {c}"
  | _ => s!"{a}, {b}, {c}"

def instruction (chunk : Chunk) (position : Nat) (w : UInt32) : String :=
  let mnemonic := Text.padRight 8 ((Word.op w).mnemonic?.getD "???")
  let operands := chunk.operandText position w
  s!"{mnemonic} {operands}"

def instructions (chunk : Chunk) : List String :=
  chunk.code.toList.zipIdx.map fun (w, position) => chunk.instruction position w

def listing (chunk : Chunk) : String :=
  let name := chunk.name
  let ⟨d, f, s, a⟩ := chunk.registers
  let returns :=
    if chunk.returns.isEmpty then []
    else ["; returns " ++ ", ".intercalate chunk.returns]
  let names :=
    if chunk.names.isEmpty then []
    else ["; names " ++ ", ".intercalate chunk.names.toList]
  let code := chunk.instructions.zipIdx.map fun (text, position) =>
    positionText position ++ "  " ++ text
  let lines := [s!"; {name}  regs d:{d} f:{f} s:{s} a:{a}"] ++ returns ++ code ++ names
  String.join (lines.map (· ++ "\n"))

end Chunk

end ActorScript
