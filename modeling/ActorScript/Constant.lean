import ActorScript.Decimal.Layout
import ActorScript.Text.Fold
import ActorScript.Ty

/-! # Constants

A value known before the program runs, together with its type. Integers,
booleans, sounds and colors hold a 32-bit payload, pointers an address.
-/

namespace ActorScript

inductive Address where
  | null
  | state (id : StateId)
  | cls (id : ClassId)
  deriving DecidableEq, Repr

inductive Value where
  | int (v : Int32)
  | float (v : Float)
  | name (text : String)
  | string (text : String)
  | pointer (address : Address)

structure Constant where
  ty : Ty
  value : Value

namespace Constant

def int (v : Int32) : Constant := ⟨.int, .int v⟩

def uint (v : UInt32) : Constant := ⟨.uint, .int v.toInt32⟩

def float (v : Float) : Constant := ⟨.double, .float v⟩

def bool (v : Bool) : Constant := ⟨.bool, .int (if v then 1 else 0)⟩

def name (text : String) : Constant := ⟨.name, .name text⟩

def string (text : String) : Constant := ⟨.string, .string text⟩

def sound (id : Int32) : Constant := ⟨.sound, .int id⟩

def color (rgb : UInt32) : Constant := ⟨.color, .int rgb.toInt32⟩

def null : Constant := ⟨.nullPtr, .pointer .null⟩

/-- A state to go to; none is the null state, which means not to jump. -/
def state : Option StateId → Constant
  | some id => ⟨.state, .pointer (.state id)⟩
  | none => ⟨.state, .pointer .null⟩

/-- Integer value; floats are cut towards zero and held to the range. -/
def toInt (c : Constant) : Int32 :=
  match c.value with
  | .int v => v
  | .float v => Decimal.toInt32 v
  | _ => 0

def toUInt (c : Constant) : UInt32 :=
  match c.value with
  | .int v => v.toUInt32
  | .float v => Decimal.toUInt32 v
  | _ => 0

def toFloat (c : Constant) : Float :=
  match c.value with
  | .int v => if c.ty.isUnsigned then v.toUInt32.toFloat else Decimal.ofInt32 v
  | .float v => v
  | _ => 0.0

/-- Nonzero numbers, non-null pointers and non-empty texts are true, and the name `none` is not. -/
def truth (c : Constant) : Bool :=
  match c.value with
  | .int v => v != 0
  | .float v => v != 0.0
  | .pointer address => address != .null
  | .name text => !text.isEmpty && !Text.sameName text "none"
  | .string text => !text.isEmpty

def text? (c : Constant) : Option String :=
  match c.value with
  | .name text => some text
  | .string text => some text
  | _ => none

def address? (c : Constant) : Option Address :=
  match c.value with
  | .pointer address => some address
  | _ => none

def isNull (c : Constant) : Bool :=
  c.address? == some .null

def isZero (c : Constant) : Bool :=
  c.ty.isNumeric && c.toFloat == 0.0

def intText (ty : Ty) (v : Int32) : String :=
  match ty with
  | .bool => if v != 0 then "true" else "false"
  | .color => "#" ++ Text.hexPadded 6 (v.toUInt32.toNat % 0x1000000)
  | _ => if ty.isUnsigned then toString v.toUInt32.toNat else toString v.toInt

def display (c : Constant) : String :=
  match c.value with
  | .int v => intText c.ty v
  | .float v => if Decimal.isWhole v then Decimal.fixed 1 v else Decimal.Layout.plain.format v
  | .name text => "'" ++ text ++ "'"
  | .string text => "\"" ++ text ++ "\""
  | .pointer .null => "null"
  | .pointer (.state id) => "state#" ++ toString id
  | .pointer (.cls id) => "class#" ++ toString id

end Constant

end ActorScript
