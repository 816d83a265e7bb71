import ActorScript.Text.Blank
import ActorScript.Text.Fold

/-! # Colors

A color is read from a name, from three or six hexadecimal digits after a hash
sign, from three hexadecimal numbers, or from six bare digits.
-/

namespace ActorScript.Color

/-- Named colors, red in the third byte, green in the second and blue in the first. -/
def named : List (String × Nat) :=
  [("black", 0x000000), ("white", 0xffffff), ("red", 0xff0000), ("green", 0x00ff00),
    ("blue", 0x0000ff), ("yellow", 0xffff00), ("cyan", 0x00ffff), ("magenta", 0xff00ff),
    ("gray", 0xbebebe), ("grey", 0xbebebe), ("darkgray", 0xa9a9a9), ("darkgrey", 0xa9a9a9),
    ("lightgray", 0xd3d3d3), ("orange", 0xffa500), ("brown", 0xa52a2a), ("purple", 0xa020f0),
    ("pink", 0xffc0cb), ("gold", 0xffd700), ("darkred", 0x8b0000), ("darkgreen", 0x006400),
    ("darkblue", 0x00008b), ("lightblue", 0xadd8e6), ("olivedrab", 0x6b8e23), ("tan", 0xd2b48c),
    ("navy", 0x000080), ("maroon", 0xb03060)]

/-- A hexadecimal number below `2 ^ 32`, with an optional plus sign. -/
def hexNumber? (cs : List Char) : Option Nat := do
  let digits := if cs.head? == some '+' then cs.drop 1 else cs
  if digits.isEmpty then none
  let value := Text.ofDigits 16 (← digits.mapM Text.hexDigit?)
  if value < UInt32.size then some value else none

/-- One hexadecimal digit for each of red, green and blue. -/
def shortForm? (cs : List Char) : Option Nat :=
  (cs.mapM Text.hexDigit?).map fun digits => Text.ofDigits 256 (digits.map (· * 0x11))

/-- Three numbers, each held to one byte. -/
def triple? (parts : List (List Char)) : Option Nat :=
  (parts.mapM hexNumber?).map fun values => Text.ofDigits 256 (values.map (min 0xff))

/-- The color a text names, as a number `0xRRGGBB`. -/
def parse (text : String) : Option Nat :=
  let cs := Text.trimChars text.toList
  let key := String.ofList ((cs.filter (!Text.isBlank ·)).map Text.foldChar)
  match named.lookup key with
  | some rgb => some rgb
  | none =>
      match cs with
      | '#' :: hex =>
          match Text.byteCount hex with
          | 3 => shortForm? hex
          | 6 => hexNumber? hex
          | _ => none
      | _ =>
          let parts := Text.runs Text.isBlank cs
          if parts.length == 3 then triple? parts
          else if Text.byteCount cs == 6 then hexNumber? cs
          else none

end ActorScript.Color
