import ActorScript.Text.Fold
import ActorScript.Bytecode.Instruction
import ActorScript.Bytecode.Chunk
import ActorScript.Bytecode.ConstantPool

/-! # The assembler

Collects the instructions and constants of one function and hands out registers. A step
that goes wrong is noted and the work goes on; the first fault noted decides that the
function cannot be finished.
-/

namespace ActorScript

inductive AssemblyFault where
  | registerOverflow (bank? : Option Bank)
  | operandOverflow (op : Op) (value : Int)
  | jumpOutOfRange (source target : Nat)
  | doubleFree (bank : Bank) (reg : Nat)
  | badReuse (bank : Bank) (reg : Nat)
  /-- A tree that typing has not been through. -/
  | unresolved (what : String)
  deriving DecidableEq, Repr

def AssemblyFault.message : AssemblyFault → String
  | registerOverflow bank? =>
      let word := (bank?.map Bank.word).getD "Nil"
      s!"function needs more than 256 {word} registers"
  | operandOverflow op value =>
      let name := op.mnemonic?.getD "?"
      s!"operand {value} does not fit instruction '{name}'"
  | jumpOutOfRange source target => s!"jump from {source} to {target} is out of range"
  | doubleFree bank reg =>
      let letter := bank.letter
      s!"register {letter}{reg} released while not in use"
  | badReuse bank reg =>
      let letter := bank.letter
      s!"register {letter}{reg} reused while still live"
  | unresolved what => s!"cannot emit unresolved {what} node"

instance : Rowed Pooled := ⟨fun _ => Fin.last 255⟩

structure Assembler where
  name : String := ""
  code : Array Instr := #[]
  ints : ConstantPool Int32 := .empty
  floats : ConstantPool UInt64 := .empty
  strings : ConstantPool String := .empty
  addresses : ConstantPool Pooled := .empty
  names : Array String := #[]
  pools : Banks RegisterPool := .replicate {}
  returns : List String := []
  faults : Array AssemblyFault := #[]
  deriving Inhabited

abbrev Assembly := StateM Assembler

namespace Assembly

def note (fault : AssemblyFault) : Assembly Unit :=
  modify fun s => { s with faults := s.faults.push fault }

/-! ## Registers -/

/-- Takes the lowest run of free registers. Register 0 stands in when there is none. -/
def allocMany (bank? : Option Bank) (count : Nat) : Assembly Nat := do
  let s ← get
  match bank?.bind fun bank => ((s.pools.get bank).get? count).map (bank, ·) with
  | some (bank, reg, pool) =>
      set { s with pools := s.pools.set bank pool }
      return reg
  | none =>
      note (.registerOverflow bank?)
      return 0

def alloc (bank? : Option Bank) : Assembly Nat :=
  allocMany bank? 1

def release (bank? : Option Bank) (reg count : Nat) : Assembly Unit := do
  if let some bank := bank? then
    let s ← get
    let (wasUsed, pool) := (s.pools.get bank).release reg count
    set { s with pools := s.pools.set bank pool }
    unless wasUsed do
      note (.doubleFree bank reg)

def reuse (bank? : Option Bank) (reg : Nat) : Assembly Unit := do
  if let some bank := bank? then
    let s ← get
    match (s.pools.get bank).reuse? reg with
    | some pool => set { s with pools := s.pools.set bank pool }
    | none => note (.badReuse bank reg)

def live (bank? : Option Bank) : Assembly Nat := do
  let s ← get
  return match bank? with
    | some bank => (s.pools.get bank).live
    | none => 0

/-! ## Constants -/

def intConstant (value : Int32) : Assembly Nat :=
  modifyGet fun s =>
    let (index, ints) := s.ints.intern value
    (index, { s with ints })

/-- A float is asked for by its bits, which tell also the zeros and those that are not numbers
apart. -/
def floatConstant (bits : UInt64) : Assembly Nat :=
  modifyGet fun s =>
    let (index, floats) := s.floats.intern bits
    (index, { s with floats })

def stringConstant (value : String) : Assembly Nat :=
  modifyGet fun s =>
    let (index, strings) := s.strings.intern value
    (index, { s with strings })

def addressConstant (value : Pooled) : Assembly Nat :=
  modifyGet fun s =>
    let (index, addresses) := s.addresses.intern value
    (index, { s with addresses })

/-- Position of a name in the table of names, whatever the case of its letters. -/
def nameIndex (name : String) : Assembly Nat :=
  modifyGet fun s =>
    match s.names.findIdx? (Text.sameName name) with
    | some index => (index, s)
    | none => (s.names.size, { s with names := s.names.push name })

/-- Pool entry that holds the position of a name. -/
def nameConstant (name : String) : Assembly Nat := do
  intConstant (Int32.ofNat (← nameIndex name))

/-! ## Instructions -/

def position : Assembly Nat := do
  return (← get).code.size

def lastOp? : Assembly (Option Op) := do
  return (← get).code.back?.map Instr.op

def append (i : Instr) : Assembly Nat :=
  modifyGet fun s => (s.code.size, { s with code := s.code.push i })

/-- Notes an operand that its byte cannot hold. -/
def checkByte (op : Op) (operand : Operand) : Assembly Unit := do
  if operand.value > 255 then
    note (.operandOverflow op operand.value)

def abc (op : Op) (a b c : Operand) : Assembly Nat := do
  checkByte op a
  checkByte op b
  checkByte op c
  append (.abc op a b c)

def abx (op : Op) (a bx : Operand) : Assembly Nat := do
  checkByte op a
  append (.abx op a bx)

def asbx (op : Op) (a : Operand) (offset : Int) : Assembly Nat := do
  checkByte op a
  unless fitsOffset offset do
    note (.operandOverflow op offset)
  append (.asbx op a offset)

/-- Loads an integer, from the instruction itself if it fits there. -/
def loadInt (reg : Nat) (value : Int32) : Assembly Unit := do
  if fitsOffset value.toInt then
    discard (asbx .li (.reg Bank.int reg) value.toInt)
  else
    let index ← intConstant value
    discard (abx (.lk .int) (.reg Bank.int reg) (.pool Bank.int index))

/-- A jump whose target is filled in later. -/
def jumpForward : Assembly Nat :=
  asbx .jmp (.imm 0) 0

/-- Distance of a jump, counted from the instruction after it. -/
def jumpOffset (source target : Nat) : Int :=
  (target : Int) - source - 1

def checkJump (source target : Nat) : Assembly Unit := do
  unless fitsOffset (jumpOffset source target) do
    note (.jumpOutOfRange source target)

def jumpTo (target : Nat) : Assembly Unit := do
  let source ← position
  checkJump source target
  discard (asbx .jmp (.imm 0) (jumpOffset source target))

def patchTo (source target : Nat) : Assembly Unit := do
  checkJump source target
  modify fun s =>
    { s with code := s.code.modify source (·.withOffset (jumpOffset source target)) }

def patch (source : Nat) : Assembly Unit := do
  patchTo source (← position)

def setReturns (returns : List String) : Assembly Unit :=
  modify fun s => { s with returns }

end Assembly

/-- The finished function, unless a fault was noted. -/
def Assembler.finish (s : Assembler) : Except AssemblyFault Chunk :=
  match s.faults[0]? with
  | some fault => .error fault
  | none => .ok
    { name := s.name
      code := s.code.map Instr.encode
      ints := s.ints.entries
      floats := s.floats.entries
      strings := s.strings.entries
      addresses := s.addresses.entries
      names := s.names
      registers := s.pools.map RegisterPool.highWater
      returns := s.returns }

end ActorScript
