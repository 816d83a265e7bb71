import ActorScript.Typing.Conversion

/-! # Operators on settled operands

The type of an operation follows from the types of its operands. Operations on
constants are carried out at once, in the arithmetic of their common type.
-/

namespace ActorScript

namespace Typing

open ActorScript.Expr (settled)

/-! ## Common types -/

/-- Pointers that may point to the same thing. -/
def pointersMix (w : World) (a b : Ty) : Bool :=
  a == b || a == .nullPtr || b == .nullPtr ||
    match a, b with
    | .object c, .object d => w.descends c d || w.descends d c
    | .classPtr c, .classPtr d => w.descends c d || w.descends d c
    | _, _ => false

/-- Type in which two numbers meet: unsigned if both are, and a float if one of them is. -/
def meetNumbers (a b : Ty) : Ty :=
  if a.bank? = some .int && b.bank? = some .int then
    if a.isUnsigned && b.isUnsigned then .uint else .int
  else .double

def unify (w : World) (a b : Ty) : Option Ty :=
  if a = .bool && b = .bool then some .bool
  else if a = .name && b = .name then some .name
  else if a.isNumeric && b.isNumeric then some (meetNumbers a b)
  else if a.isPointer && b.isPointer && pointersMix w a b then some .bool
  else none

def bothNumeric (l r : Expr) : Bool :=
  l.ty.isNumeric && r.ty.isNumeric

/-- Common type of two numbers, with booleans as they are. -/
def commonType (l r : Expr) : Typing Ty := do
  return (unify (← read).world l.ty r.ty).getD .int

/-- Makes a float of the other operand when one is. -/
def promote (l r : Expr) : Typing (Expr × Expr) := do
  match l.ty.isFloat, r.ty.isFloat with
  | true, false => return (l, ← toFloat r.span r)
  | false, true => return (← toFloat l.span l, r)
  | _, _ => return (l, r)

def bothConstant? (l r : Expr) : Option (Constant × Constant) :=
  match l.constant?, r.constant? with
  | some a, some b => some (a, b)
  | _, _ => none

/-! ## Arithmetic -/

def floatArithmetic (op : BinOp) (a b : Float) : Float :=
  match op with
  | .add => a + b
  | .sub => a - b
  | .mul => a * b
  | .div => a / b
  | _ => Decimal.remainder a b

def wordArithmetic (op : BinOp) (a b : UInt32) : UInt32 :=
  match op with
  | .add => a + b
  | .sub => a - b
  | .mul => a * b
  | .div => a / b
  | _ => a % b

/-- Arithmetic of signed words, which wraps around. -/
def intArithmetic (op : BinOp) (a b : Int32) : Int32 :=
  match op with
  | .add => a + b
  | .sub => a - b
  | .mul => a * b
  | .div => a / b
  | _ => a % b

/-- Result of an arithmetic operation on constants that meet in a type. -/
def foldArithmetic (op : BinOp) (ty : Ty) (a b : Constant) : Constant :=
  if ty.isFloat then .float (floatArithmetic op a.toFloat b.toFloat)
  else if ty.isUnsigned then .uint (wordArithmetic op a.toUInt b.toUInt)
  else ⟨ty, .int (intArithmetic op a.toInt b.toInt)⟩

/-- Constant booleans are added as integers. -/
def arithmetic (span : Span) (op : BinOp) (l r : Expr) : Typing Expr := do
  if !bothNumeric l r then reject span .numericExpected
  else
    let ty ← commonType l r
    if (op = .div || op = .mod) && r.isZero then reject span .divisionByZero
    else
      match bothConstant? l r with
      | some (a, b) =>
          return .ofConstant span (foldArithmetic op (if ty = .bool then .int else ty) a b)
      | none =>
          let (l, r) ← promote l r
          return .binary (settled span ty) op l r

def power (span : Span) (l r : Expr) : Typing Expr := do
  let l ← toFloat l.span l
  let r ← toFloat r.span r
  match bothConstant? l r with
  | some (a, b) => return .ofConstant span (.float (a.toFloat.pow b.toFloat))
  | none => return .binary (settled span .double) .pow l r

/-! ## Comparisons -/

/-- Values of constants nearer to each other than this count as equal. -/
def tolerance : Float := 1.0 / 65536.0

/-- Whether constants that meet in a type are in the order an operator asks for. -/
def foldOrder (op : BinOp) (ty : Ty) (a b : Constant) : Bool :=
  if ty.isFloat then
    match op with
    | .lt => a.toFloat < b.toFloat
    | .gt => b.toFloat < a.toFloat
    | .le => a.toFloat ≤ b.toFloat
    | _ => b.toFloat ≤ a.toFloat
  else if ty.isUnsigned then
    match op with
    | .lt => a.toUInt < b.toUInt
    | .gt => b.toUInt < a.toUInt
    | .le => a.toUInt ≤ b.toUInt
    | _ => b.toUInt ≤ a.toUInt
  else
    match op with
    | .lt => a.toInt < b.toInt
    | .gt => b.toInt < a.toInt
    | .le => a.toInt ≤ b.toInt
    | _ => b.toInt ≤ a.toInt

def ordering (span : Span) (op : BinOp) (l r : Expr) : Typing Expr := do
  if !bothNumeric l r then reject span .numericExpected
  else
    let ty ← commonType l r
    match bothConstant? l r with
    | some (a, b) => return .ofConstant span (.bool (foldOrder op ty a b))
    | none =>
        let (l, r) ← promote l r
        return .binary (settled span .bool) op l r

/-- Equality of constants that meet in a type: names without regard to case, floats nearly. -/
def constantsEqual (ty : Ty) (a b : Constant) : Bool :=
  match a.value, b.value with
  | .name s, .name t => Text.sameName s t
  | .pointer p, .pointer q => p == q
  | _, _ =>
      if ty.isFloat then (a.toFloat - b.toFloat).abs < tolerance else a.toInt == b.toInt

/-- Approximate equality is for floats; of anything else it is equality. -/
def equality (span : Span) (op : BinOp) (l r : Expr) : Typing Expr := do
  match unify (← read).world l.ty r.ty with
  | none => reject span .numericExpected
  | some ty =>
      let op := if op = .approxEq && !ty.isFloat then .eq else op
      match bothConstant? l r with
      | some (a, b) => return .ofConstant span (.bool (constantsEqual ty a b != (op == .ne)))
      | none =>
          let (l, r) ← promote l r
          return .binary (settled span .bool) op l r

/-- Sign of the difference of two constants. -/
def foldThreeWay (a b : Float) : Int32 :=
  if a < b then -1 else if a == b then 0 else 1

def threeWay (span : Span) (l r : Expr) : Typing Expr := do
  if !bothNumeric l r then reject span .threeWayOperands
  else
    let (l, r) ← promote l r
    match bothConstant? l r with
    | some (a, b) => return .ofConstant span (.int (foldThreeWay a.toFloat b.toFloat))
    | none => return .binary (settled span .int) .threeWay l r

/-! ## Bits -/

def isIntegral (ty : Ty) : Bool :=
  ty.bank? == some .int && ty.isNumeric

/-- Operations on words; shifts go by the amount modulo 32. -/
def foldBits (op : BinOp) (a b : Int32) : Int32 :=
  match op with
  | .shl => a <<< b
  | .shr => a >>> b
  | .ushr => (a.toUInt32 >>> b.toUInt32).toInt32
  | .bitAnd => a &&& b
  | .bitOr => a ||| b
  | _ => a ^^^ b

def bitsOf (span : Span) (op : BinOp) (l r : Expr) : Typing Expr := do
  if !isIntegral l.ty || !isIntegral r.ty then reject span .integerExpected
  else
    let ty ← commonType l r
    match bothConstant? l r with
    | some (a, b) => return .ofConstant span ⟨ty, .int (foldBits op a.toInt b.toInt)⟩
    | none => return .binary (settled span ty) op l r

/-- In the lax dialect floats are cut to integers first. -/
def bitwise (span : Span) (op : BinOp) (l r : Expr) : Typing Expr := do
  if (← read).lax && (l.ty.isFloat || r.ty.isFloat) then
    bitsOf span op (← toInt l.span l true) (← toInt r.span r true)
  else bitsOf span op l r

def binaryOf (span : Span) (op : BinOp) (l r : Expr) : Typing Expr :=
  match op with
  | .pow => power span l r
  | .add | .sub | .mul | .div | .mod => arithmetic span op l r
  | .lt | .gt | .le | .ge => ordering span op l r
  | .eq | .ne | .approxEq => equality span op l r
  | .threeWay => threeWay span l r
  | .shl | .shr | .ushr | .bitAnd | .bitOr | .bitXor => bitwise span op l r

/-! ## Choices -/

def known? (e : Expr) : Option Bool :=
  e.constant?.map Constant.truth

/-- The node left of a logical operation. When operands are known, scripts rely on this table:
a false operand of a conjunction makes it true, and two true ones make it false. -/
def foldLogical (span : Span) (op : LogicalOp) (l r : Expr) : Expr :=
  let constant (b : Bool) := Expr.ofConstant span (.bool b)
  let node := Expr.logical (settled span .bool) op l r
  match op, known? l, known? r with
  | .and, some false, _ | .and, _, some false => constant true
  | .and, some true, some true => constant false
  | .and, some true, none => r
  | .and, none, some true => l
  | .or, some true, _ | .or, _, some true => constant true
  | .or, some false, some false => constant false
  | .or, some false, none => r
  | .or, none, some false => l
  | _, none, none => node

def branchType? (w : World) (t f : Ty) : Option Ty :=
  if t.isNumeric && f.isNumeric then some ((unify w t f).getD .double)
  else if t = f then some t
  else if t.isPointer && f = .nullPtr then some t
  else if f.isPointer && t = .nullPtr then some f
  else none

/-- Makes a float of a branch when the conditional is one. -/
def widen (ty : Ty) (e : Expr) : Typing Expr :=
  if ty.isFloat then toFloat e.span e else pure e

/-- A conditional whose condition is a boolean. A known condition leaves one branch. -/
def conditionalOf (span : Span) (cond whenTrue whenFalse : Expr) : Typing Expr := do
  match branchType? (← read).world whenTrue.ty whenFalse.ty with
  | none => reject span (.branchTypes (← describe whenTrue.ty) (← describe whenFalse.ty))
  | some ty =>
      match known? cond with
      | some true => widen ty whenTrue
      | some false => widen ty whenFalse
      | none =>
          let whenTrue ← widen ty whenTrue
          let whenFalse ← widen ty whenFalse
          return .conditional (settled span ty) cond whenTrue whenFalse

/-! ## Unary operators -/

/-- Type of a number with its sign changed or dropped. -/
def signedType? : Ty → Option Ty
  | .bool => some .int
  | ty => if ty.isNumeric then some ty else none

/-- Constant of a signed type from what is done to its float and to its integer value. -/
def foldSigned (ty : Ty) (c : Constant) (onFloat : Float → Float) (onInt : Int32 → Int32) :
    Constant :=
  if ty.isFloat then ⟨ty, .float (onFloat c.toFloat)⟩ else ⟨ty, .int (onInt c.toInt)⟩

def negate (span : Span) (x : Expr) : Typing Expr := do
  match signedType? x.ty with
  | none => reject span .numericExpected
  | some ty =>
      match x.constant? with
      | some c => return .ofConstant span (foldSigned ty c (-·) (-·))
      | none => return .unary (settled span ty) .minus x

def complementOf (span : Span) (x : Expr) : Typing Expr := do
  if !isIntegral x.ty then reject span .integerExpected
  else
    let ty := if x.ty.isUnsigned then Ty.uint else Ty.int
    match x.constant? with
    | some c => return .ofConstant span ⟨ty, .int (~~~c.toInt)⟩
    | none => return .unary (settled span ty) .bitNot x

def complement (span : Span) (x : Expr) : Typing Expr := do
  if (← read).lax && x.ty.isFloat then complementOf span (← toInt x.span x true)
  else complementOf span x

def negateBool (span : Span) (x : Expr) : Typing Expr := do
  let x ← toBool x.span x
  match x.constant? with
  | some c => return .ofConstant span (.bool (!c.truth))
  | none => return .unary (settled span .bool) .boolNot x

def unaryOf (span : Span) (op : UnaryOp) (x : Expr) : Typing Expr := do
  match op with
  | .plus => if x.ty.isNumeric then return x else reject span .numericExpected
  | .minus => negate span x
  | .bitNot => complement span x
  | .boolNot => negateBool span x

def absoluteOf (span : Span) (x : Expr) : Typing Expr := do
  match signedType? x.ty with
  | none => reject span .numericExpected
  | some ty =>
      match x.constant? with
      | some c =>
          return .ofConstant span (foldSigned ty c Float.abs fun v => if v < 0 then -v else v)
      | none => return .abs (settled span ty) x

end Typing

end ActorScript
