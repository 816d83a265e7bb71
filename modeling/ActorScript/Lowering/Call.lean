import ActorScript.Lowering.Basic

/-! # Calls

Code for calls of functions and of the services of the machine. Parameters are passed one
by one: first what every function of the kind expects, then the arguments in order.
-/

namespace ActorScript.Lowering

def params (args : List (Lowering Place)) : Lowering Unit :=
  args.forM fun arg => do param (← arg)

/-- Who called and in which state, for functions that want to know. -/
def callerPlaces : Lowering (List Place) := do
  match (← read).kind with
  | .action => return [.fixed Bank.pointer 1, .fixed Bank.pointer 2]
  | _ =>
      let null ← pooledAddress .null
      return [null, null]

/-- Passes what every function of a kind expects: the object, and then the caller. -/
def implicitParams (kind : FunctionKind) (object : Option (Lowering Place)) : Lowering Unit := do
  match kind with
  | .static => pure ()
  | .method => param (← object.getD selfPlace)
  | .action =>
      param (← object.getD selfPlace)
      (← callerPlaces).forM param

def invoke (function : Signature) (object : Option (Lowering Place))
    (args : List (Lowering Place)) (tail : Bool) : Lowering Place := do
  implicitParams function.kind object
  params args
  let owner := (← read).world.className function.owner
  call (.function (owner ++ "." ++ function.name)) (function.kind.implicitArgs + args.length)
    (function.returns.map Ty.bank?) tail

/-- Passes an argument of a line special. Constants go into the instruction; a name that
stands for a script is passed as its negated position among the names. -/
def specialParam (named : Bool) (known : Option Constant) (arg : Lowering Place) :
    Lowering Unit := do
  match known with
  | some c =>
      match named, c.value with
      | true, .name text => paramInt (-(Int32.ofNat (← Assembly.nameIndex text)))
      | _, _ => paramInt c.toInt
  | none => param (← arg)

def specialParams (named : Bool) : List (Option Constant × Lowering Place) → Lowering Unit
  | [] => pure ()
  | (known, arg) :: rest => do
      specialParam named known arg
      specialParams false rest

/-- A call of a line special. A negative number asks for a script by name. -/
def special (number : Int32) (args : List (Option Constant × Lowering Place)) (tail : Bool) :
    Lowering Place := do
  paramInt (if number < 0 then -number else number)
  param (← selfPlace)
  specialParams (number < 0) args
  callService .callLineSpecial (2 + args.length) .int tail

/-! ## Random numbers -/

def generator (name : String) : Lowering Unit := do
  param (← pooledAddress (.generator name))

def random (float : Bool) (rng : String) (low high : Lowering Place) (tail : Bool) :
    Lowering Place := do
  generator rng
  params [low, high]
  if float then callService .frandom 3 .float tail
  else callService .random 3 .int tail

def random2 (rng : String) (mask : Lowering Place) (tail : Bool) : Lowering Place := do
  generator rng
  params [mask]
  callService .random2 2 .int tail

/-- Lowers the choices one after the other into one register. Every choice but the last
ends with a jump past the others; the positions of these jumps are returned. -/
def choices (bank : Bank) (out : Place) : List (Nat × Lowering Place) → Lowering (List Nat)
  | [] => return []
  | (entry, choice) :: rest => do
      Assembly.patch entry
      let value ← choice
      assign bank out value
      value.free
      if rest.isEmpty then
        return []
      else
        let finish ← Assembly.jumpForward
        return finish :: (← choices bank out rest)

def drawPosition (rng : String) (count : Nat) : Lowering Place := do
  generator rng
  paramInt 0
  paramInt (Int32.ofInt ((count : Int) - 1))
  callService .random 3 .int false

/-- Draws a position and jumps through a table to the choice there. -/
def randomPick (float : Bool) (rng : String) (options : List (Lowering Place)) :
    Lowering Place := do
  let bank := if float then Bank.float else .int
  let index ← drawPosition rng options.length
  emitWide .ijmp index.operand (.imm 0)
  index.free
  let table ← options.mapM fun _ => Assembly.jumpForward
  let out ← Place.alloc bank
  let finishes ← choices bank out (table.zip options)
  finishes.forM fun finish => Assembly.patch finish
  return out

/-! ## Functions of numbers -/

def floatFn (fn : FloatFn) (arg : Lowering Place) : Lowering Place := do
  let value ← toRegister (← arg)
  value.free
  let out ← Place.alloc Bank.float
  emit .flop out.operand value.operand (.imm fn.code)
  return out

def abs (operand : Lowering Place) : Lowering Place := do
  let value ← toRegister (← operand)
  value.free
  let out ← Place.alloc value.bank?
  if value.bank? = some .float then
    emit .flop out.operand value.operand (.imm absSelector)
  else
    emit .abs out.operand value.operand (.imm 0)
  return out

def atan2 (y x : Lowering Place) : Lowering Place := do
  let y ← toRegister (← y)
  let x ← toRegister (← x)
  y.free
  x.free
  let out ← Place.alloc Bank.float
  emit .atan2 out.operand y.operand x.operand
  return out

/-- The relation of the best value so far to a better one, and the outcome that keeps it. -/
def improvement : Extremum → Relation × Nat
  | .min => (.le, 1)
  | .max => (.lt, 0)

def improve (bank? : Option Bank) (op : Extremum) (best : Place) (arg : Lowering Place) :
    Lowering Unit := do
  let comparand : Comparand := if bank? = some .float then .float else .signed
  let (relation, check) := improvement op
  let value ← arg
  let form : Form := if value.isConstant then .rk else .rr
  emit (.compare relation comparand form) (.imm check) best.operand value.operand
  skip 1
  assign bank? best value
  value.free

def extremum (ty : Ty) (op : Extremum) (args : List (Lowering Place)) : Lowering Place := do
  match args with
  | [] => return .nil
  | first :: rest =>
      let best ← toScratch (← first)
      rest.forM (improve ty.bank? op best)
      return best

/-! ## Classes and states -/

/-- The class with a name, if it descends from another. -/
def classCast (target : ClassId) (operand : Lowering Place) : Lowering Place := do
  param (← operand)
  param (← pooledAddress (.cls ((← read).world.className target)))
  callService .nameToClass 2 .pointer false

/-- The state at a position known when the code runs. -/
def runtimeState (index : Lowering Place) (tail : Bool) : Lowering Place := do
  param (.fixed Bank.pointer 1)
  param (.fixed Bank.pointer 2)
  param (← index)
  callService .handleRuntimeState 3 .pointer tail

/-- Whose states are meant. -/
def stateOwner : Lowering Place := do
  match (← read).kind with
  | .action => return .fixed Bank.pointer 1
  | _ => selfPlace

def nameParams (names : List String) : Lowering Unit :=
  names.forM fun name => do paramInt (Int32.ofNat (← Assembly.nameIndex name))

/-- The state under a label of one or more names. -/
def stateLabel (names : List String) (tail : Bool) : Lowering Place := do
  param (← stateOwner)
  nameParams names
  let service := if names.length = 1 then Service.findSingleNameState else .findMultiNameState
  callService service (names.length + 1) .pointer tail

end ActorScript.Lowering
