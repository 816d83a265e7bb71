import ActorScript.Lowering.Basic

/-! # Operators

Code for conversions and operators, from the code of their operands. Operands are lowered
from left to right and their registers given up before that of the result is taken, so
that the result may use one of them again, except where a comparison still needs them.
-/

namespace ActorScript.Lowering

/-! ## Conversions -/

def convert (operand : Lowering Place) (bank : Bank) (conversion : Conversion) :
    Lowering Place := do
  let source ← toRegister (← operand)
  source.free
  let out ← Place.alloc bank
  emit .cast out.operand source.operand (.imm conversion.code)
  return out

/-- The test of a value for the zero of its bank, and the zero. -/
def zeroTest (bank? : Option Bank) (dest : Place) : Lowering (Op × Operand) := do
  match bank? with
  | some .float =>
      let index ← Assembly.floatConstant (0.0 : Float).toBits
      return (.equal .float true, .pool Bank.float index)
  | some .pointer => return (.equal .address true, (← pooledAddress .null).operand)
  -- The result register holds zero by the time the comparison runs.
  | _ => return (.equal .word false, dest.operand)

def toBool (operand : Lowering Place) : Lowering Place := do
  let source ← toRegister (← operand)
  let dest ← Place.alloc Bank.int
  source.free
  let (comparison, other) ← zeroTest source.bank? dest
  truthOf dest comparison 1 source.operand other
  return dest

def cast (kind : CastKind) (source : Ty) (operand : Lowering Place) : Lowering Place :=
  match kind with
  | .bool => toBool operand
  | .float =>
      convert operand .float (if source.isUnsigned then .uintToFloat else .intToFloat)
  | .name => convert operand .int .stringToName
  | .string => convert operand .string (if source = .sound then .soundToString else .nameToString)
  | .color => convert operand .int .stringToColor
  | .sound => convert operand .int .stringToSound

def intCast (target : Ty) (operand : Lowering Place) : Lowering Place :=
  convert operand .int (if target.isUnsigned then .floatToUInt else .floatToInt)

/-! ## Unary operators -/

def unary (op : UnaryOp) (operand : Lowering Place) : Lowering Place := do
  let value ← operand
  match op with
  | .plus => return value
  | .minus =>
      let value ← toScratch value
      if value.bank? = some .float then
        emit .flop value.operand value.operand (.imm negSelector)
      else
        emit .neg value.operand value.operand (.imm 0)
      return value
  | .bitNot =>
      let value ← toScratch value
      emit .not value.operand value.operand (.imm 0)
      return value
  | .boolNot =>
      let value ← toScratch value
      let one ← pooledInt 1
      emit .not value.operand value.operand (.imm 0)
      emit (.commuting .and true) value.operand value.operand one
      return value

/-- The operation that moves a value of a bank by one, and the one. -/
def stepBy (op : StepOp) (bank? : Option Bank) : Lowering (Op × Operand) := do
  if bank? = some .float then
    let one := Operand.pool Bank.float (← Assembly.floatConstant (1.0 : Float).toBits)
    match op with
    | .increment => return (.commuting .addf true, one)
    | .decrement => return (.ordered .subf .rk, one)
  else
    let one ← pooledInt 1
    match op with
    | .increment => return (.commuting .add true, one)
    | .decrement => return (.ordered .sub .rk, one)

/-- Moves a variable in its register. Its old value is copied first if it is wanted. -/
def stepVariable (step : Op × Operand) (before byAddress : Bool) (bank? : Option Bank)
    (place : Place) : Lowering Place := do
  if before then
    emit step.1 place.operand place.operand step.2
    return { place with isVariable := byAddress }
  let old ← Place.alloc bank?
  emit (.moveOf bank?) old.operand place.operand (.imm 0)
  emit step.1 place.operand place.operand step.2
  return old

def stepCell (step : Op × Operand) (zero : Operand) (before byAddress : Bool) (ty : Ty)
    (place : Place) : Lowering Place := do
  let value ← Place.alloc ty.bank?
  emit (.load (.ofTy ty) false) value.operand place.operand zero
  if before then
    emit step.1 value.operand value.operand step.2
    emit (.store (.ofTy ty) false) place.operand value.operand zero
    if byAddress then
      value.free
      return place
    place.free
    return value
  let stepped ← Place.alloc ty.bank?
  emit step.1 stepped.operand value.operand step.2
  emit (.store (.ofTy ty) false) place.operand stepped.operand zero
  place.free
  stepped.free
  return value

def step (op : StepOp) (before byAddress : Bool) (ty : Ty) (operand : Lowering Place) :
    Lowering Place := do
  let place ← operand
  let step ← stepBy op ty.bank?
  let zero ← pooledInt 0
  if place.isVariable then stepVariable step before byAddress ty.bank? place
  else stepCell step zero before byAddress ty place

/-! ## Assignment -/

/-- Stores a value. The value of the whole is what was stored, or the place if it is wanted. -/
def assignment (byAddress : Bool) (ty : Ty) (target value : Lowering Place) : Lowering Place := do
  let place ← target
  let stored ← withAssigned place value
  let stored ←
    if place.isVariable then do
      assign stored.bank? place stored
      pure stored
    else do
      let stored ← toRegister stored
      let zero ← pooledInt 0
      emit (.store (.ofTy ty) false) place.operand stored.operand zero
      pure stored
  if byAddress then
    stored.free
    return place
  place.free
  return stored

/-- The left side of the innermost assignment, read once more. -/
def assignedValue (ty : Ty) : Lowering Place := do
  match (← getThe Draft).assigned with
  | [] => unresolved "compound assignment"
  | place :: _ =>
      if place.isVariable then
        return { place with isVariable := false, isFixed := true }
      let out ← Place.alloc ty.bank?
      let zero ← pooledInt 0
      emit (.load (.ofTy ty) false) out.operand place.operand zero
      return out

/-! ## Binary operators -/

/-- Form of an operation by which of its inputs is a constant. -/
def formOf (left right : Place) : Form :=
  if right.isConstant then .rk
  else if left.isConstant then .kr
  else .rr

/-- The operands with a constant on the right, if there is one. -/
def constantLast (left right : Place) : Place × Place :=
  if left.isConstant then (right, left) else (left, right)

def arithmeticOp (op : BinOp) (ty : Ty) (form : Form) : Op :=
  let float := ty.bank? = some .float
  let unsigned := ty.isUnsigned
  let constant := form = .rk
  match op with
  | .add => .commuting (if float then .addf else .add) constant
  | .mul => .commuting (if float then .mulf else .mul) constant
  | .sub => .ordered (if float then .subf else .sub) form
  | .div => .ordered (if float then .divf else if unsigned then .divu else .div) form
  | .mod => .ordered (if float then .modf else if unsigned then .modu else .mod) form
  | _ => .ordered .powf form

def arithmetic (op : BinOp) (ty : Ty) (left right : Lowering Place) : Lowering Place := do
  let l ← left
  let r ← right
  let (l, r) := if op = .add || op = .mul then constantLast l r else (l, r)
  l.free
  r.free
  let dest ← Place.alloc ty.bank?
  emit (arithmeticOp op ty (formOf l r)) dest.operand l.operand r.operand
  return dest

/-- How a comparison of two types reads its operands, the first of which is in `bank?`. -/
def comparandOf (bank? : Option Bank) (leftTy rightTy : Ty) : Comparand :=
  if bank? = some .float then .float
  else if leftTy.isUnsigned && rightTy.isUnsigned then .unsigned
  else .signed

/-- The relation behind an order operator, and the outcome that makes the operator false. -/
def relationOf : BinOp → Relation × Nat
  | .lt => (.lt, 0)
  | .gt => (.le, 1)
  | .ge => (.lt, 1)
  | _ => (.le, 0)

def order (op : BinOp) (leftTy rightTy : Ty) (left right : Lowering Place) : Lowering Place := do
  let l ← left
  let r ← right
  let comparand := comparandOf l.bank? leftTy rightTy
  let (relation, check) := relationOf op
  let dest ← Place.alloc Bank.int
  l.free
  r.free
  truthOf dest (.compare relation comparand (formOf l r)) check l.operand r.operand
  return dest

def equalityOf : Option Bank → Equality
  | some .float => .float
  | some .pointer => .address
  | _ => .word

/-- The outcome that makes a test for equality false. -/
def outcomeOf : BinOp → Nat
  | .approxEq => approximately
  | .ne => 1
  | _ => 0

def equality (op : BinOp) (left right : Lowering Place) : Lowering Place := do
  let l ← left
  let r ← right
  let (l, r) := constantLast l r
  let dest ← Place.alloc Bank.int
  l.free
  r.free
  truthOf dest (.equal (equalityOf l.bank?) r.isConstant) (outcomeOf op) l.operand r.operand
  return dest

/-- Less is -1, equal 0, greater 1. -/
def threeWay (leftTy rightTy : Ty) (left right : Lowering Place) : Lowering Place := do
  let l ← left
  let r ← right
  let comparand := comparandOf l.bank? leftTy rightTy
  let form := formOf l r
  let dest ← Place.alloc Bank.int
  emitSigned .li dest.operand 1
  emit (.compare .lt comparand form) (.imm 0) l.operand r.operand
  let notLess ← Assembly.jumpForward
  emitSigned .li dest.operand (-1)
  let less ← Assembly.jumpForward
  Assembly.patch notLess
  emit (.compare .le comparand form) (.imm 0) l.operand r.operand
  let greater ← Assembly.jumpForward
  emitSigned .li dest.operand 0
  Assembly.patch less
  Assembly.patch greater
  l.free
  r.free
  return dest

def shiftOf : BinOp → Shift
  | .shl => .sll
  | .shr => .sra
  | _ => .srl

/-- A constant amount goes into the instruction. -/
def shift (op : BinOp) (amount : Option Constant) (left right : Lowering Place) :
    Lowering Place := do
  let l ← left
  match amount with
  | some c =>
      let l ← toRegister l
      l.free
      let dest ← Place.alloc Bank.int
      emit (.shift (shiftOf op) .rk) dest.operand l.operand (.imm (c.toInt.toUInt32.toNat % 32))
      return dest
  | none =>
      let r ← right
      l.free
      r.free
      let dest ← Place.alloc Bank.int
      let form : Form := if l.isConstant then .kr else .rr
      emit (.shift (shiftOf op) form) dest.operand l.operand r.operand
      return dest

def bitwiseOf : BinOp → Commuting
  | .bitAnd => .and
  | .bitOr => .or
  | _ => .xor

def bitwise (op : BinOp) (left right : Lowering Place) : Lowering Place := do
  let l ← left
  let r ← right
  let (l, r) := constantLast l r
  l.free
  r.free
  let dest ← Place.alloc Bank.int
  emit (.commuting (bitwiseOf op) r.isConstant) dest.operand l.operand r.operand
  return dest

/-- A binary operator between operands whose types, and right constant, are known. -/
def binary (op : BinOp) (ty leftTy rightTy : Ty) (amount : Option Constant)
    (left right : Lowering Place) : Lowering Place :=
  match op with
  | .add | .sub | .mul | .div | .mod | .pow => arithmetic op ty left right
  | .lt | .gt | .le | .ge => order op leftTy rightTy left right
  | .eq | .ne | .approxEq => equality op left right
  | .threeWay => threeWay leftTy rightTy left right
  | .shl | .shr | .ushr => shift op amount left right
  | .bitAnd | .bitOr | .bitXor => bitwise op left right

/-! ## Choices -/

/-- The outcome of a test against zero that leaves the right operand to decide. -/
def openOutcome : LogicalOp → Nat
  | .and => 1
  | .or => 0

def earlyValue : LogicalOp → Int
  | .and => 0
  | .or => 1

/-- The right operand runs only if the left one leaves the outcome open. -/
def logical (op : LogicalOp) (left right : Lowering Place) : Lowering Place := do
  let zero ← pooledInt 0
  let l ← toRegister (← left)
  l.free
  emit (.equal .word true) (.imm (openOutcome op)) l.operand zero
  let shortcut ← Assembly.jumpForward
  let r ← toRegister (← right)
  r.free
  let dest ← Place.alloc Bank.int
  emit (.equal .word true) (.imm (openOutcome op)) r.operand zero
  skip 2
  emitSigned .li dest.operand (1 - earlyValue op)
  skip 1
  let target ← Assembly.position
  emitSigned .li dest.operand (earlyValue op)
  Assembly.patchTo shortcut target
  return dest

def conditional (ty : Ty) (cond whenTrue whenFalse : Lowering Place) : Lowering Place := do
  let zero ← pooledInt 0
  let c ← toRegister (← cond)
  emit (.equal .word true) (.imm 1) c.operand zero
  c.free
  let toFalse ← Assembly.jumpForward
  let out ← toScratch (← whenTrue)
  let toEnd ← Assembly.jumpForward
  Assembly.patch toFalse
  let other ← whenFalse
  assign ty.bank? out other
  other.free
  Assembly.patch toEnd
  return out

end ActorScript.Lowering
