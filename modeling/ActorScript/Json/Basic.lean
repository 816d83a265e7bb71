import ActorScript.Decimal.Layout
import ActorScript.Text.Fold

/-! # JSON values

A value keeps its numbers as they are written and its members in order, repeated
keys included. Writing is compact, without blanks.
-/

namespace ActorScript

inductive Json where
  | null
  | bool (b : Bool)
  | num (text : String)
  | str (text : String)
  /-- A string with an escape that stands for no character. -/
  | badStr
  | arr (items : List Json)
  | obj (members : List (String × Json))
  deriving Inhabited

namespace Json

def ofInt (i : Int) : Json :=
  .num (toString i)

def ofNat (n : Nat) : Json :=
  .num (toString n)

/-- A finite number; other floats have no JSON form and become null. -/
def ofFloat (x : Float) : Json :=
  if Decimal.isFinite x then .num (Decimal.Layout.json.format x) else .null

def ofOption (f : α → Json) : Option α → Json
  | none => .null
  | some a => f a

def member? (key : String) : Json → Option Json
  | .obj members => members.lookup key
  | _ => none

/-- A character as it stands inside a JSON string. -/
def escapeChar (c : Char) : List Char :=
  if c = '"' then ['\\', '"']
  else if c = '\\' then ['\\', '\\']
  else if c.toNat = 8 then ['\\', 'b']
  else if c.toNat = 12 then ['\\', 'f']
  else if c = '\n' then ['\\', 'n']
  else if c = '\r' then ['\\', 'r']
  else if c = '\t' then ['\\', 't']
  else if c.toNat < 0x20 then ['\\', 'u'] ++ (Text.hexPadded 4 c.toNat).toList
  else [c]

def quote (text : String) : String :=
  String.ofList (['"'] ++ text.toList.flatMap escapeChar ++ ['"'])

mutual

def write : Json → String → String
  | .null, out => out ++ "null"
  | .bool b, out => out ++ if b then "true" else "false"
  | .num text, out => out ++ text
  | .str text, out => out ++ quote text
  | .badStr, out => out ++ quote ""
  | .arr items, out => writeItems items (out ++ "[") ++ "]"
  | .obj members, out => writeMembers members (out ++ "\x7b") ++ "\x7d"

def writeItems : List Json → String → String
  | [], out => out
  | [item], out => item.write out
  | item :: rest, out => writeItems rest (item.write out ++ ",")

def writeMembers : List (String × Json) → String → String
  | [], out => out
  | [(key, value)], out => value.write (out ++ quote key ++ ":")
  | (key, value) :: rest, out =>
      writeMembers rest (value.write (out ++ quote key ++ ":") ++ ",")

end

def render (j : Json) : String :=
  j.write ""

/-- An object with its members in the order of their keys. -/
def sorted (members : List (String × Json)) : Json :=
  .obj (members.mergeSort fun a b => a.1 ≤ b.1)

end Json

end ActorScript
