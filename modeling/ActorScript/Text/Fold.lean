/-! # Letter case

Names compare without regard to the case of ASCII letters; every other
character stands for itself.
-/

namespace ActorScript.Text

/-- Lower-case form of an ASCII capital; any other character is kept. -/
def foldChar (c : Char) : Char :=
  if 'A' ≤ c ∧ c ≤ 'Z' then Char.ofNat (c.toNat + 32) else c

def fold (text : String) : String :=
  String.ofList (text.toList.map foldChar)

def sameName (a b : String) : Bool :=
  fold a == fold b

/-- Bytes a character takes in UTF-8. -/
def charBytes (c : Char) : Nat :=
  c.utf8Size

def byteCount (cs : List Char) : Nat :=
  cs.foldr (fun c n => charBytes c + n) 0

def hexDigit? (c : Char) : Option Nat :=
  if c.isDigit then some (c.toNat - '0'.toNat)
  else if 'a' ≤ c ∧ c ≤ 'f' then some (c.toNat - 'a'.toNat + 10)
  else if 'A' ≤ c ∧ c ≤ 'F' then some (c.toNat - 'A'.toNat + 10)
  else none

/-- Number spelled by digits, the most significant first. -/
def ofDigits (base : Nat) (digits : List Nat) : Nat :=
  digits.foldl (fun n d => n * base + d) 0

def decimalValue (cs : List Char) : Nat :=
  ofDigits 10 (cs.map fun c => c.toNat - '0'.toNat)

/-- Digits of a number in lower-case hexadecimal, filled with zeros to `width`. -/
def hexPadded (width n : Nat) : String :=
  let digits := Nat.toDigits 16 n
  String.ofList (List.replicate (width - digits.length) '0' ++ digits)

def padRight (width : Nat) (text : String) : String :=
  text ++ String.ofList (List.replicate (width - text.length) ' ')

def padLeft (width : Nat) (fill : Char) (text : String) : String :=
  String.ofList (List.replicate (width - text.length) fill) ++ text

end ActorScript.Text
