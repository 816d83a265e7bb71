/-! # Types of values

Types are plain values compared by structure. A class is named by its number in
the world that declares it.
-/

namespace ActorScript

/-- The register file a value lives in, which also selects the instructions that work on it. -/
inductive Bank where
  | int | float | string | pointer
  deriving DecidableEq, Repr

namespace Bank

def all : List Bank := [int, float, string, pointer]

def letter : Bank → String
  | int => "d"
  | float => "f"
  | string => "s"
  | pointer => "a"

def code : Bank → Nat
  | int => 0
  | float => 1
  | string => 2
  | pointer => 3

def word : Bank → String
  | int => "Int"
  | float => "Float"
  | string => "String"
  | pointer => "Pointer"

end Bank

abbrev ClassId := Nat

abbrev StateId := Nat

inductive IntKind where
  | i8 | u8 | i16 | u16 | i32 | u32
  deriving DecidableEq, Repr

inductive FloatKind where
  | f32 | f64
  deriving DecidableEq, Repr

inductive Ty where
  /-- Stands in for the type of an expression that has none. -/
  | error
  | void
  | bool
  | integer (kind : IntKind)
  | floating (kind : FloatKind)
  | name
  | string
  | sound
  | color
  | state
  | nullPtr
  /-- Pointer to an instance of a class. -/
  | object (cls : ClassId)
  /-- Pointer to a class itself. -/
  | classPtr (cls : ClassId)
  | struct (name : String)
  | array (elem : Ty) (count : Nat)
  deriving DecidableEq, Repr, Inhabited

namespace Ty

abbrev int : Ty := .integer .i32
abbrev uint : Ty := .integer .u32
abbrev double : Ty := .floating .f64

/-- Bank of the registers that hold a value of the type; some types fit none. -/
def bank? : Ty → Option Bank
  | .bool | .integer _ | .name | .sound | .color => some .int
  | .floating _ => some .float
  | .string => some .string
  | .state | .nullPtr | .object _ | .classPtr _ => some .pointer
  | .error | .void | .struct _ | .array _ _ => none

/-- Bytes a value takes in memory. -/
def size : Ty → Nat
  | .error | .void | .struct _ => 0
  | .bool | .integer .i8 | .integer .u8 => 1
  | .integer .i16 | .integer .u16 => 2
  | .integer _ | .name | .sound | .color | .floating .f32 => 4
  | .floating .f64 | .string | .state | .nullPtr | .object _ | .classPtr _ => 8
  | .array elem count => elem.size * count

/-- Addresses of values of the type are multiples of this. -/
def align : Ty → Nat
  | .array elem _ => elem.align
  | .error | .void | .struct _ => 1
  | other => other.size

/-- Booleans, integers and floats. Names, sounds and colors live in integer registers but
are not arithmetic. -/
def isNumeric : Ty → Bool
  | .bool | .integer _ | .floating _ => true
  | _ => false

def isPointer (t : Ty) : Bool :=
  t.bank? == some .pointer

def isUnsigned : Ty → Bool
  | .integer .u8 | .integer .u16 | .integer .u32 => true
  | _ => false

def isFloat : Ty → Bool
  | .floating _ => true
  | _ => false

def isInt : Ty → Bool
  | .integer _ => true
  | _ => false

end Ty

end ActorScript
