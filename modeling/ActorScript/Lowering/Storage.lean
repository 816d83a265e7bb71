import ActorScript.Lowering.Basic

/-! # Fields and elements

Code that reaches a cell of memory from the place of the object or array that holds it.
-/

namespace ActorScript.Lowering

/-- The address `offset` bytes past that in a register, which is given up. -/
def addressPast (start : Place) (offset : Int32) : Lowering Place := do
  start.free
  let out ← Place.alloc Bank.pointer
  let distance ← pooledInt offset
  emit (.commuting .adda true) out.operand start.operand distance
  return out

/-- A field of an object: its address if that is wanted, and its value otherwise. -/
def field (byAddress : Bool) (ty : Ty) (offset : Nat) (object : Lowering Place) :
    Lowering Place := do
  let start ← toRegister (← object)
  if byAddress then
    if offset = 0 then return start
    else addressPast start (Int32.ofNat offset)
  else
    let distance ← pooledInt (Int32.ofNat offset)
    let value ← Place.alloc ty.bank?
    emit (.load (.ofTy ty) false) value.operand start.operand distance
    start.free
    return value

/-- How often a size is divisible by two, at most 32 times. -/
def scaleOf (size : Nat) : Nat :=
  ((List.range 32).takeWhile fun k => size % Nat.pow 2 (k + 1) = 0).length

def constantElement (byAddress : Bool) (elem : Ty) (start : Place) (index : Int32) :
    Lowering Place := do
  let offset := index * Int32.ofNat elem.size
  let distance ← pooledInt offset
  if byAddress then
    if offset = 0 then return start
    else addressPast start offset
  else
    let value ← Place.alloc elem.bank?
    emit (.load (.ofTy elem) false) value.operand start.operand distance
    start.free
    return value

def scaleIndex (size count : Nat) (index : Place) : Lowering Unit := do
  emitWide .bound index.operand (.imm (count % 65536))
  if scaleOf size > 0 then
    emit (.shift .sll .rk) index.operand index.operand (.imm (scaleOf size))

def computedElement (byAddress : Bool) (elem : Ty) (count : Nat) (start : Place)
    (index : Lowering Place) : Lowering Place := do
  let index ← toScratch (← index)
  scaleIndex elem.size count index
  if byAddress then
    start.free
    index.free
    let out ← Place.alloc Bank.pointer
    emit (.commuting .adda false) out.operand start.operand index.operand
    return out
  else
    let value ← Place.alloc elem.bank?
    emit (.load (.ofTy elem) true) value.operand start.operand index.operand
    index.free
    start.free
    return value

/-- An element of an array, whose position may be known in advance. -/
def element (byAddress : Bool) (arrayTy : Ty) (position : Option Constant)
    (array index : Lowering Place) : Lowering Place := do
  match arrayTy with
  | .array elem count =>
      let start ← toRegister (← array)
      match position with
      | some c => constantElement byAddress elem start c.toInt
      | none => computedElement byAddress elem count start index
  | _ => array

end ActorScript.Lowering
