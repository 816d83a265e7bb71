import ActorScript.Text.Blank
import ActorScript.World.Basic

/-! # Names of types

How types are written, and how they are read back.
-/

namespace ActorScript

def IntKind.describe : IntKind → String
  | .i8 => "int8"
  | .u8 => "uint8"
  | .i16 => "int16"
  | .u16 => "uint16"
  | .i32 => "int"
  | .u32 => "uint"

/-- Spelling of a type, with classes by the names they have in a world. -/
def World.describe (w : World) : Ty → String
  | .error => "<error>"
  | .void => "void"
  | .bool => "bool"
  | .integer kind => kind.describe
  | .floating .f32 => "float"
  | .floating .f64 => "double"
  | .name => "name"
  | .string => "string"
  | .sound => "sound"
  | .color => "color"
  | .state => "state"
  | .nullPtr => "null"
  | .object c => w.className c
  | .classPtr c => "class<" ++ w.className c ++ ">"
  | .struct name => name
  | .array elem count => w.describe elem ++ "[" ++ toString count ++ "]"

def plainTypes : List (String × Ty) :=
  [("void", .void), ("bool", .bool),
    ("int8", .integer .i8), ("sbyte", .integer .i8), ("uint8", .integer .u8),
    ("byte", .integer .u8), ("int16", .integer .i16), ("short", .integer .i16),
    ("uint16", .integer .u16), ("ushort", .integer .u16), ("int", .int), ("int32", .int),
    ("uint", .uint), ("uint32", .uint), ("float", .floating .f32), ("float32", .floating .f32),
    ("double", .double), ("float64", .double), ("name", .name), ("string", .string),
    ("sound", .sound), ("color", .color), ("state", .state)]

/-- What stands between a beginning and an ending of a text. -/
def between? (first last : String) (cs : List Char) : Option (List Char) :=
  let inner := cs.drop first.length
  if first.toList.isPrefixOf cs && last.toList.isSuffixOf inner then
    some (inner.take (inner.length - last.length))
  else none

/-- A decimal number below `2 ^ 32`, with an optional plus sign. -/
def countValue? (cs : List Char) : Option Nat :=
  let digits := if cs.head? == some '+' then cs.drop 1 else cs
  if digits.isEmpty || !digits.all Char.isDigit then none
  else
    let value := Text.decimalValue digits
    if value < UInt32.size then some value else none

def World.parseScalar (w : World) (cs : List Char) : Option Ty :=
  match between? "class<" ">" cs with
  | some inner => (w.findClass (Text.trim (String.ofList inner))).map .classPtr
  | none =>
      match between? "struct " "" cs with
      | some inner => some (.struct (Text.trim (String.ofList inner)))
      | none =>
          let text := String.ofList cs
          match plainTypes.lookup (Text.fold text) with
          | some ty => some ty
          | none => (w.findClass text).map .object

/-- Reads the name of a type with so many opening brackets. -/
def World.parseBracketed (w : World) : Nat → List Char → Option Ty
  | 0, cs => w.parseScalar (Text.trimChars cs)
  | brackets + 1, cs => do
      let reversed := (Text.trimChars cs).reverse
      let ']' :: size := reversed.takeWhile (· != '[') | none
      let count ← countValue? (Text.trimChars size.reverse)
      let elem ← w.parseBracketed brackets ((reversed.dropWhile (· != '[')).drop 1).reverse
      some (.array elem count)

/-- Reads a type as `describe` writes it. -/
def World.parseType (w : World) (text : String) : Option Ty :=
  w.parseBracketed (text.toList.count '[') text.toList

end ActorScript
