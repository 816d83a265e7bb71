import ActorScript.Bytecode.Assembler

/-! # Places

Where the value of an expression was left.
-/

namespace ActorScript

structure Place where
  /-- Register number, or position in the constant pool. -/
  number : Nat := 0
  bank? : Option Bank := none
  isConstant : Bool := false
  /-- The register belongs to a variable or to the machine and is never freed with the value. -/
  isFixed : Bool := false
  /-- The value was handed to the caller by a tail call. -/
  isFinal : Bool := false
  /-- The register is the variable itself and not a pointer to it. -/
  isVariable : Bool := false
  deriving DecidableEq, Repr, Inhabited

namespace Place

def nil : Place := {}

def constant (bank? : Option Bank) (index : Nat) : Place :=
  { number := index, bank?, isConstant := true }

def fixed (bank? : Option Bank) (reg : Nat) : Place :=
  { number := reg, bank?, isFixed := true }

def final : Place :=
  { isFinal := true }

def operand (p : Place) : Operand :=
  if p.isConstant then .pool p.bank? p.number else .reg p.bank? p.number

/-- Tells the machine which bank a value is in and whether it is a constant. -/
def tag (p : Place) : Nat :=
  match p.bank? with
  | some bank => bank.code + if p.isConstant then 4 else 0
  | none => 8

def isOwned (p : Place) : Bool :=
  !p.isFixed && !p.isConstant && p.bank?.isSome

def alloc (bank? : Option Bank) : Assembly Place := do
  return { number := ← Assembly.alloc bank?, bank? }

def free (p : Place) : Assembly Unit := do
  if p.isOwned then
    Assembly.release p.bank? p.number 1

def reuse (p : Place) : Assembly Unit := do
  if p.isOwned then
    Assembly.reuse p.bank? p.number

end Place

end ActorScript
