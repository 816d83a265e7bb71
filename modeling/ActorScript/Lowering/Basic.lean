import ActorScript.Bytecode.Place
import ActorScript.Expr.Basic

/-! # Lowering

The setting in which settled trees become code, and the steps that the lowering of
different trees has in common.
-/

namespace ActorScript

structure Target where
  world : World
  kind : FunctionKind

/-- Jumps of a loop that wait for their targets. -/
structure LoopJumps where
  breaks : List Nat := []
  continues : List Nat := []
  deriving DecidableEq, Repr, Inhabited

structure Draft where
  assembler : Assembler
  /-- Registers of the local variables. -/
  homes : Array (Option Place)
  loops : List LoopJumps := []
  /-- Left sides of the enclosing assignments, innermost first. -/
  assigned : List Place := []
  deriving Inhabited

abbrev Lowering := ReaderT Target (StateM Draft)

instance : MonadLift Assembly Lowering where
  monadLift step := modifyGet fun ⟨assembler, homes, loops, assigned⟩ =>
    let (value, assembler) := step.run assembler
    (value, ⟨assembler, homes, loops, assigned⟩)

namespace Lowering

/-! ## Instructions without a use for their position -/

def emit (op : Op) (a b c : Operand) : Lowering Unit :=
  discard (Assembly.abc op a b c)

def emitWide (op : Op) (a bx : Operand) : Lowering Unit :=
  discard (Assembly.abx op a bx)

def emitSigned (op : Op) (a : Operand) (offset : Int) : Lowering Unit :=
  discard (Assembly.asbx op a offset)

def skip (count : Nat) : Lowering Unit :=
  emitSigned .jmp (.imm 0) count

def unresolved (what : String) : Lowering Place := do
  Assembly.note (.unresolved what)
  return .nil

/-! ## Places -/

def pooledInt (value : Int32) : Lowering Operand :=
  return .pool Bank.int (← Assembly.intConstant value)

def pooledAddress (value : Pooled) : Lowering Place :=
  return .constant Bank.pointer (← Assembly.addressConstant value)

def poolEntry (w : World) : Address → Pooled
  | .null => .null
  | .state id => .state id ((w.state? id).elim "" State.label)
  | .cls id => .cls (w.className id)

/-- A folded value, as an entry of the pool of its bank. -/
def constant (c : Constant) : Lowering Place := do
  match c.ty.bank? with
  | some .int =>
      match c.value with
      | .name text => return .constant Bank.int (← Assembly.nameConstant text)
      | _ => return .constant Bank.int (← Assembly.intConstant c.toInt)
  | some .float => return .constant Bank.float (← Assembly.floatConstant c.toFloat.toBits)
  | some .string =>
      return .constant Bank.string (← Assembly.stringConstant (c.text?.getD ""))
  | some .pointer => pooledAddress (poolEntry (← read).world (c.address?.getD .null))
  | none => return .nil

/-- Writes a value to a register of a bank, be it a constant or another register. -/
def assign (bank? : Option Bank) (target source : Place) : Lowering Unit :=
  if source.isConstant then
    emitWide (.loadConstant bank?) target.operand source.operand
  else
    emit (.moveOf bank?) target.operand source.operand (.imm 0)

def toRegister (p : Place) : Lowering Place := do
  if p.isConstant then
    let out ← Place.alloc p.bank?
    emitWide (.loadConstant p.bank?) out.operand p.operand
    return out
  else
    return p

/-- The value in a register that may be overwritten. -/
def toScratch (p : Place) : Lowering Place := do
  if p.isConstant || p.isFixed then
    let out ← Place.alloc p.bank?
    assign p.bank? out p
    return out
  else
    return p

/-- The object the code runs for, in the first pointer register. Static functions have none. -/
def selfPlace : Lowering Place := do
  match (← read).kind with
  | .static => pooledAddress .null
  | _ => return .fixed Bank.pointer 0

/-! ## Local variables -/

def home (id : LocalId) : Lowering Place := do
  match (← getThe Draft).homes[id]? with
  | some (some place) => return place
  | _ => unresolved "local variable"

def bindHome (id : LocalId) (bank? : Option Bank) (reg : Nat) : Lowering Unit :=
  modifyThe Draft fun draft =>
    { draft with homes := draft.homes.setIfInBounds id (some (.fixed bank? reg)) }

def releaseHome (id : LocalId) : Lowering Unit := do
  if let some (some place) := (← getThe Draft).homes[id]? then
    modifyThe Draft fun draft => { draft with homes := draft.homes.setIfInBounds id none }
    Assembly.release place.bank? place.number 1

/-! ## Truth values and calls -/

/-- Sets a register to 1 if a comparison comes out as wanted and to 0 otherwise. -/
def truthOf (dest : Place) (comparison : Op) (check : Nat) (b c : Operand) : Lowering Unit := do
  emitSigned .li dest.operand 0
  emit comparison (.imm check) b c
  skip 1
  emitSigned .li dest.operand 1

/-- Passes a value to the next call and gives its register up. -/
def param (p : Place) : Lowering Unit := do
  emitWide .param (.imm p.tag) p.operand
  p.free

def paramInt (value : Int32) : Lowering Unit := do
  if fitsOffset value.toInt then
    emitSigned .parami (.imm 0) value.toInt
  else
    param (.constant Bank.int (← Assembly.intConstant value))

/-- The first result of the call just made, in a fresh register. -/
def result (bank? : Option Bank) : Lowering Place := do
  let out ← Place.alloc bank?
  emitWide .result (.imm out.tag) out.operand
  return out

/-- Calls with parameters already passed, which are counted in sixteen bits. A tail call hands its
results to the caller. -/
def call (callee : Pooled) (params : Nat) (results : List (Option Bank)) (tail : Bool) :
    Lowering Place := do
  let callee ← pooledAddress callee
  let expected := Operand.imm (if results.isEmpty then 0 else 1)
  if tail then
    emit .tailK callee.operand (.imm (params % 65536)) expected
    return .final
  emit .callK callee.operand (.imm (params % 65536)) expected
  match results with
  | bank? :: _ => result bank?
  | [] => return .nil

def callService (service : Service) (params : Nat) (bank : Bank) (tail : Bool) : Lowering Place :=
  call (.native service) params [some bank] tail

def withAssigned {α : Type} (place : Place) (x : Lowering α) : Lowering α := do
  modifyThe Draft fun draft => { draft with assigned := place :: draft.assigned }
  let value ← x
  modifyThe Draft fun draft => { draft with assigned := draft.assigned.tail }
  return value

end Lowering

end ActorScript
