import ActorScript.Text.Fold

/-! # Operators

The operators of expressions and the float functions built into the machine.
-/

namespace ActorScript

inductive BinOp where
  | add | sub | mul | div | mod | pow
  | lt | gt | le | ge | eq | ne | approxEq | threeWay
  | shl | shr | ushr | bitAnd | bitOr | bitXor
  deriving DecidableEq, Repr

def BinOp.symbol : BinOp → String
  | .add => "+"
  | .sub => "-"
  | .mul => "*"
  | .div => "/"
  | .mod => "%"
  | .pow => "**"
  | .lt => "<"
  | .gt => ">"
  | .le => "<="
  | .ge => ">="
  | .eq => "=="
  | .ne => "!="
  | .approxEq => "~=="
  | .threeWay => "<>="
  | .shl => "<<"
  | .shr => ">>"
  | .ushr => ">>>"
  | .bitAnd => "&"
  | .bitOr => "|"
  | .bitXor => "^"

inductive LogicalOp where
  | and | or
  deriving DecidableEq, Repr

def LogicalOp.symbol : LogicalOp → String
  | .and => "&&"
  | .or => "||"

inductive UnaryOp where
  | plus | minus | bitNot | boolNot
  deriving DecidableEq, Repr

def UnaryOp.symbol : UnaryOp → String
  | .plus => "+"
  | .minus => "-"
  | .bitNot => "~"
  | .boolNot => "!"

inductive StepOp where
  | increment | decrement
  deriving DecidableEq, Repr

def StepOp.symbol : StepOp → String
  | .increment => "++"
  | .decrement => "--"

inductive StorageOp where
  | size | align
  deriving DecidableEq, Repr

def StorageOp.symbol : StorageOp → String
  | .size => "sizeof"
  | .align => "alignof"

def StorageOp.quantity : StorageOp → String
  | .size => "size"
  | .align => "alignment"

inductive Extremum where
  | min | max
  deriving DecidableEq, Repr

def Extremum.symbol : Extremum → String
  | .min => "min"
  | .max => "max"

/-- Float functions of one argument. Angles are in degrees. -/
inductive FloatFn where
  | exp | log | log10 | sqrt | ceil | floor
  | acos | asin | atan | cos | sin | tan | cosh | sinh | tanh
  deriving DecidableEq, Repr

namespace FloatFn

def all : List FloatFn :=
  [exp, log, log10, sqrt, ceil, floor, acos, asin, atan, cos, sin, tan, cosh, sinh, tanh]

def name : FloatFn → String
  | exp => "exp"
  | log => "log"
  | log10 => "log10"
  | sqrt => "sqrt"
  | ceil => "ceil"
  | floor => "floor"
  | acos => "acos"
  | asin => "asin"
  | atan => "atan"
  | cos => "cos"
  | sin => "sin"
  | tan => "tan"
  | cosh => "cosh"
  | sinh => "sinh"
  | tanh => "tanh"

def find? (name : String) : Option FloatFn :=
  all.find? fun f => Text.sameName f.name name

/-- Selector of the function in an instruction, from one. -/
def code : FloatFn → Nat
  | exp => 1
  | log => 2
  | log10 => 3
  | sqrt => 4
  | ceil => 5
  | floor => 6
  | acos => 7
  | asin => 8
  | atan => 9
  | cos => 10
  | sin => 11
  | tan => 12
  | cosh => 13
  | sinh => 14
  | tanh => 15

def pi : Float := 3.141592653589793

def radiansPerDegree : Float := pi / 180.0

def degreesPerRadian : Float := 180.0 / pi

def apply : FloatFn → Float → Float
  | exp, x => x.exp
  | log, x => x.log
  | log10, x => x.log10
  | sqrt, x => x.sqrt
  | ceil, x => x.ceil
  | floor, x => x.floor
  | acos, x => x.acos * degreesPerRadian
  | asin, x => x.asin * degreesPerRadian
  | atan, x => x.atan * degreesPerRadian
  | cos, x => (x * radiansPerDegree).cos
  | sin, x => (x * radiansPerDegree).sin
  | tan, x => (x * radiansPerDegree).tan
  | cosh, x => x.cosh
  | sinh, x => x.sinh
  | tanh, x => x.tanh

end FloatFn

end ActorScript
