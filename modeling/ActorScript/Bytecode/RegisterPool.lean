import ActorScript.Ty

/-! # Register pools

The registers of one bank that are in use, as a set of numbers below 256, and the number
of registers that were ever needed at once.
-/

namespace ActorScript

structure Banks (α : Type) where
  int : α
  float : α
  string : α
  pointer : α
  deriving DecidableEq, Repr, Inhabited

namespace Banks

variable {α β : Type}

def get (banks : Banks α) : Bank → α
  | .int => banks.int
  | .float => banks.float
  | .string => banks.string
  | .pointer => banks.pointer

def set (banks : Banks α) (bank : Bank) (value : α) : Banks α :=
  match bank with
  | .int => { banks with int := value }
  | .float => { banks with float := value }
  | .string => { banks with string := value }
  | .pointer => { banks with pointer := value }

def map (f : α → β) (banks : Banks α) : Banks β :=
  ⟨f banks.int, f banks.float, f banks.string, f banks.pointer⟩

def toList (banks : Banks α) : List α :=
  [banks.int, banks.float, banks.string, banks.pointer]

def replicate (value : α) : Banks α :=
  ⟨value, value, value, value⟩

end Banks

def registerCount : Nat := 256

structure RegisterPool where
  /-- One bit for each register, in words of 64. -/
  used : Vector UInt64 4 := .replicate 4 0
  /-- One more than the greatest register ever used. -/
  highWater : Nat := 0
  deriving DecidableEq, Repr, Inhabited

namespace RegisterPool

/-- The word that holds the bit of a register. -/
def word (pool : RegisterPool) (reg : Nat) : UInt64 :=
  pool.used[reg / 64]?.getD 0

def isUsed (pool : RegisterPool) (reg : Nat) : Bool :=
  pool.word reg >>> (reg % 64).toUInt64 &&& 1 != 0

def set (pool : RegisterPool) (reg : Nat) (on : Bool) : RegisterPool :=
  let bit : UInt64 := 1 <<< (reg % 64).toUInt64
  let word := if on then pool.word reg ||| bit else pool.word reg &&& ~~~bit
  { pool with used := pool.used.setIfInBounds (reg / 64) word }

/-- The lowest run of `count` free registers that begins at `start` or behind it, in at most
`limit` attempts. A register in use sends the search behind it. -/
def searchFrom (pool : RegisterPool) (count : Nat) : Nat → Nat → Option Nat
  | 0, _ => none
  | limit + 1, start =>
      if start + count ≤ registerCount then
        match (List.range' start count).find? pool.isUsed with
        | none => some start
        | some reg => pool.searchFrom count limit (reg + 1)
      else none

def take (pool : RegisterPool) (start count : Nat) : RegisterPool :=
  { (List.range' start count).foldl (fun pool reg => pool.set reg true) pool with
    highWater := max pool.highWater (start + count) }

def get? (pool : RegisterPool) (count : Nat) : Option (Nat × RegisterPool) :=
  match pool.searchFrom count (registerCount + 1) 0 with
  | none => none
  | some start => some (start, pool.take start count)

/-- Registers of a run that exist. -/
def existing (reg count : Nat) : List Nat :=
  List.range' reg (min (reg + count) registerCount - reg)

def releaseNext (state : Bool × RegisterPool) (reg : Nat) : Bool × RegisterPool :=
  (state.1 && state.2.isUsed reg, state.2.set reg false)

def release (pool : RegisterPool) (reg count : Nat) : Bool × RegisterPool :=
  (existing reg count).foldl releaseNext (true, pool)

/-- Takes one register that must be free. -/
def reuse? (pool : RegisterPool) (reg : Nat) : Option RegisterPool :=
  if reg ≥ registerCount || pool.isUsed reg then none
  else some { pool.set reg true with highWater := max pool.highWater (reg + 1) }

/-- How many registers are in use, counted word by word. -/
def live (pool : RegisterPool) : Nat :=
  pool.used.toList.foldl (fun count word => count + word.toBitVec.cpop.toNat) 0

end RegisterPool

end ActorScript
