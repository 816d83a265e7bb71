import ActorScript.Decimal.Literal
import ActorScript.Json.Basic

/-! # JSON numbers

The value of a number as it is written: an exact integer when it has neither
fraction nor exponent, a double otherwise. The double is found from the leading
digits that fit 64 bits and one scaling by a power of ten.
-/

namespace ActorScript.Json

structure Numeral where
  negative : Bool
  whole : List Char
  fraction : Option (List Char)
  exponent : Option Int
  deriving Repr

def exponentValue : List Char → Int
  | '-' :: digits => -(Text.decimalValue digits : Int)
  | '+' :: digits => Text.decimalValue digits
  | digits => Text.decimalValue digits

def Numeral.ofText (text : String) : Numeral :=
  let cs := text.toList
  let negative := cs.head? == some '-'
  let cs := if negative then cs.drop 1 else cs
  let whole := cs.takeWhile Char.isDigit
  let rest := cs.dropWhile Char.isDigit
  let isPoint := rest.head? == some '.'
  let fraction := if isPoint then some ((rest.drop 1).takeWhile Char.isDigit) else none
  let rest := if isPoint then (rest.drop 1).dropWhile Char.isDigit else rest
  let exponent := if rest.isEmpty then none else some (exponentValue (rest.drop 1))
  { negative, whole, fraction, exponent }

/-- The integer a number without fraction and exponent stands for; minus zero is none. -/
def Numeral.integer? (n : Numeral) : Option Int :=
  if n.fraction.isSome || n.exponent.isSome then none
  else
    let value := Text.decimalValue n.whole
    if n.negative then (if value == 0 then none else some (-value)) else some value

/-- Leading digits read so far and the power of ten they are to be scaled by. -/
structure Scaled where
  digits : Nat
  exponent : Int
  full : Bool

def Scaled.fits (s : Scaled) (digit : Nat) : Bool :=
  !s.full && s.digits * 10 + digit < UInt64.size

/-- Takes a digit before the point; from the first that does not fit on, they only scale. -/
def Scaled.addWhole (s : Scaled) (digit : Nat) : Scaled :=
  if s.fits digit then { s with digits := s.digits * 10 + digit }
  else { s with exponent := s.exponent + 1, full := true }

/-- Takes a digit after the point; from the first that does not fit on, they are dropped. -/
def Scaled.addFraction (s : Scaled) (digit : Nat) : Scaled :=
  if s.fits digit then { s with digits := s.digits * 10 + digit, exponent := s.exponent - 1 }
  else { s with full := true }

def Numeral.scaled (n : Numeral) : Scaled :=
  let digits (cs : List Char) := cs.map fun c => c.toNat - '0'.toNat
  let whole := (digits n.whole).foldl Scaled.addWhole ⟨0, 0, false⟩
  let all := (digits (n.fraction.getD [])).foldl Scaled.addFraction { whole with full := false }
  { all with exponent := all.exponent + n.exponent.getD 0 }

/-- Multiplies by a power of ten, at most `10 ^ 308` a time; none when out of range. -/
def scaleFloat : Nat → Float → Int → Option Float
  | 0, x, _ => some x
  | steps + 1, x, exponent =>
      let power (k : Nat) := Float.ofScientific 1 false k
      if exponent.natAbs ≤ 308 then
        if 0 ≤ exponent then
          let y := x * power exponent.toNat
          if Decimal.isFinite y then some y else none
        else some (x / power exponent.natAbs)
      else if x == 0.0 then some x
      else if 0 ≤ exponent then none
      else scaleFloat steps (x / power 308) (exponent + 308)

/-- Value of a number as a double; none when it is out of range. -/
def Numeral.toFloat? (n : Numeral) : Option Float :=
  let s := n.scaled
  (scaleFloat 4 (Float.ofNat s.digits) s.exponent).map fun x => if n.negative then -x else x

end ActorScript.Json
