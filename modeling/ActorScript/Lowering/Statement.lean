import ActorScript.Lowering.Expression
import ActorScript.Stmt

/-! # Code for statements
-/

namespace ActorScript

namespace Lowering

def returnNothing : Lowering Unit :=
  emit .ret (.imm finalReturn) (.imm Place.nil.tag) (.imm 0)

/-- Returns a value, unless a tail call has done so already. -/
def returnValue (ty : Ty) (value : Lowering Place) : Lowering Unit := do
  let place ← value
  unless place.isFinal do
    if ty = .void then
      returnNothing
    else
      emit .ret (.imm finalReturn) (.imm place.tag) place.operand
    place.free

/-- Compares a condition with zero and returns the position of the jump that follows, which is
taken if the comparison comes out as `check`. -/
def branchTest (cond : Lowering Place) (check : Nat) : Lowering Nat := do
  let c ← toRegister (← cond)
  let zero ← pooledInt 0
  emit (.equal .word true) (.imm check) c.operand zero
  let skip ← Assembly.jumpForward
  c.free
  return skip

/-- Runs a part if the condition comes out as wanted, and else the other part. -/
def branch (cond : Lowering Place) (check : Nat) (first : Lowering Unit)
    (second : Option (Lowering Unit)) : Lowering Unit := do
  let skip ← branchTest cond check
  first
  match second with
  | none => Assembly.patch skip
  | some second =>
      let leave ← Assembly.jumpForward
      Assembly.patch skip
      second
      Assembly.patch leave

/-- Tests a condition and returns the position of the jump that follows, which is taken
unless the condition is `check`. -/
def loopTest (cond : Lowering Place) (check : Nat) : Lowering Nat := do
  let c ← toRegister (← cond)
  emit .test c.operand (.imm check) (.imm 0)
  c.free
  Assembly.jumpForward

/-- Lowers the body of a loop and returns the jumps out of it. -/
def loopBody (body : Lowering Unit) : Lowering LoopJumps := do
  modifyThe Draft fun draft => { draft with loops := {} :: draft.loops }
  body
  let jumps := (← getThe Draft).loops.head?.getD {}
  modifyThe Draft fun draft => { draft with loops := draft.loops.tail }
  return jumps

def patchLoop (jumps : LoopJumps) (next finish : Nat) : Lowering Unit := do
  jumps.breaks.forM fun source => Assembly.patchTo source finish
  jumps.continues.forM fun source => Assembly.patchTo source next

/-- A loop that tests first. A condition known in advance holds, or the loop would be gone. -/
def whileLoop (cond : Option (Lowering Place)) (body : Lowering Unit) : Lowering Unit := do
  let start ← Assembly.position
  let exit ← cond.mapM fun cond => loopTest cond 0
  let jumps ← loopBody body
  Assembly.jumpTo start
  let finish ← Assembly.position
  exit.forM fun exit => Assembly.patchTo exit finish
  patchLoop jumps start finish

def doWhile (body : Lowering Unit) (known : Option Constant) (cond : Lowering Place) :
    Lowering Unit := do
  let start ← Assembly.position
  let jumps ← loopBody body
  let next ← Assembly.position
  match known with
  | none =>
      let back ← loopTest cond 1
      Assembly.patchTo back start
  | some c => if c.truth then Assembly.jumpTo start
  let finish ← Assembly.position
  patchLoop jumps next finish

def forLoop (first : Option (Lowering Unit)) (cond : Option (Lowering Place))
    (step : Option (Lowering Unit)) (body : Lowering Unit) : Lowering Unit := do
  first.getD (pure ())
  let start ← Assembly.position
  let exit ← cond.mapM fun cond => loopTest cond 0
  let jumps ← loopBody body
  let next ← Assembly.position
  step.getD (pure ())
  Assembly.jumpTo start
  let finish ← Assembly.position
  exit.forM fun exit => Assembly.patchTo exit finish
  patchLoop jumps next finish

def addJump (kind : JumpKind) (source : Nat) (jumps : LoopJumps) : LoopJumps :=
  match kind with
  | .break => { jumps with breaks := jumps.breaks ++ [source] }
  | .continue => { jumps with continues := jumps.continues ++ [source] }

def recordJump (kind : JumpKind) (source : Nat) : Lowering Unit := do
  match (← getThe Draft).loops with
  | [] => Assembly.note (.unresolved "jump outside of a loop")
  | jumps :: outer =>
      modifyThe Draft fun draft => { draft with loops := addJump kind source jumps :: outer }

/-- A jump out of the innermost loop, or on to its next round. -/
def jump (kind : JumpKind) : Lowering Unit := do
  recordJump kind (← Assembly.jumpForward)

/-- Gives a variable its home and first value. A value computed into a register of its own
stays there. -/
def declare (ty : Ty) (known : Option Constant) (value : Lowering Place) (id : LocalId) :
    Lowering Unit := do
  let bank? := ty.bank?
  match known with
  | some c =>
      match bank?, c.value with
      | some .int, .int n =>
          let reg ← Assembly.alloc bank?
          Assembly.loadInt reg n
          bindHome id bank? reg
      | _, _ =>
          let constant ← value
          let reg ← Assembly.alloc bank?
          emitWide (.loadConstant bank?) (.reg bank? reg) constant.operand
          bindHome id bank? reg
  | none =>
      let place ← toScratch (← value)
      bindHome id bank? place.number

end Lowering

open Lowering

mutual

def Stmt.lower : Stmt → Lowering Unit
  | .nop _ => pure ()
  | .expr _ value => do
      let place ← value.lower
      place.free
  | .sequence _ body => lowerBody body
  | .block _ body locals => do
      lowerBody body
      locals.forM releaseHome
  | .branch _ cond whenTrue whenFalse =>
      -- With only a part for the false outcome, the test is the other way round.
      match lowerBranch whenTrue, lowerBranch whenFalse with
      | some whenTrue, whenFalse => Lowering.branch cond.lower 1 whenTrue whenFalse
      | none, some whenFalse => Lowering.branch cond.lower 0 whenFalse none
      | none, none => pure ()
  | .whileLoop _ cond body =>
      Lowering.whileLoop (if cond.isConstant then none else some cond.lower) body.lower
  | .doWhile _ body cond => Lowering.doWhile body.lower cond.constant? cond.lower
  | .forLoop _ first cond step body =>
      Lowering.forLoop (lowerBranch first) (lowerOption cond) (lowerBranch step) body.lower
  | .jump _ kind => Lowering.jump kind
  | .ret _ none => returnNothing
  | .ret _ (some value) => returnValue value.ty value.lower
  | .declare _ _ _ (some value) (some id) =>
      Lowering.declare value.ty value.constant? value.lower id
  | .declare _ _ _ _ _ => Assembly.note (.unresolved "local declaration")

def lowerBody : List Stmt → Lowering Unit
  | [] => pure ()
  | s :: rest => do
      s.lower
      lowerBody rest

def lowerBranch : Option Stmt → Option (Lowering Unit)
  | none => none
  | some s => some s.lower

end

end ActorScript
