import ActorScript.Decimal.Binary

/-! # Shortest decimals

The decimal with the fewest digits among those that read back as a given double.
For one digit, then two, and so on, the two neighbours of the value on the
decimal grid are tried; of two that read back the nearer one is taken. Which one
that is on an exact tie is for the format to say.
-/

namespace ActorScript.Decimal

/-- Where a number halfway between two whole numbers goes. -/
inductive Tie where
  | up
  | even
  deriving DecidableEq, Repr

def Tie.nearest (tie : Tie) (num den : Nat) : Nat :=
  let below := num / den
  let twice := 2 * (num % den)
  if twice < den then below
  else if den < twice then below + 1
  else
    match tie with
    | .up => below + 1
    | .even => if below % 2 == 0 then below else below + 1

/-- The number `digits * 10 ^ exponent`. -/
structure Scientific where
  digits : Nat
  exponent : Int
  deriving DecidableEq, Repr

/-- Number of decimal digits; one for zero. -/
def digitCount (n : Nat) : Nat :=
  (Nat.toDigits 10 n).length

/-- Least `k` with `num / den < 10 ^ k`, for positive numbers. -/
def magnitude (num den : Nat) : Int :=
  if den ≤ num then digitCount (num / den)
  else
    let k := digitCount (den / num)
    if num * Nat.pow 10 (k - 1) == den then 2 - (k : Int) else 1 - (k : Int)

/-- The reals that round to a double, as numerators over the common denominator
`4 * denominator`. The ends belong to the interval when the mantissa is even. -/
structure Interval where
  low : Nat
  value : Nat
  high : Nat
  den : Nat
  closed : Bool
  deriving Repr

/-- Whether the double below is half as far away as the one above: so it is at the powers of
two, except for the least exponent, where the doubles go on at the same distance. -/
def Binary.narrowBelow (b : Binary) : Bool :=
  b.mantissa == leadingMantissa && -1074 < b.exponent

/-- Half the distance to the doubles on both sides. -/
def Binary.interval (b : Binary) : Interval :=
  let unit := Nat.pow 2 b.exponent.toNat
  { low := 4 * b.numerator - (if b.narrowBelow then 1 else 2) * unit
    value := 4 * b.numerator
    high := 4 * b.numerator + 2 * unit
    den := 4 * b.denominator
    closed := b.mantissa % 2 == 0 }

def Interval.holds (i : Interval) (n : Nat) (exponent : Int) : Bool :=
  let point := n * Nat.pow 10 exponent.toNat * i.den
  let scale := Nat.pow 10 (-exponent).toNat
  if i.closed then i.low * scale ≤ point && point ≤ i.high * scale
  else i.low * scale < point && point < i.high * scale

/-- The better neighbour of the value on the grid of multiples of `10 ^ exponent`. -/
def Interval.neighbour? (i : Interval) (tie : Tie) (exponent : Int) : Option Nat :=
  let num := i.value * Nat.pow 10 (-exponent).toNat
  let den := i.den * Nat.pow 10 exponent.toNat
  let below := num / den
  let above := below + 1
  match i.holds below exponent, i.holds above exponent with
  | true, true => some (tie.nearest num den)
  | true, false => some below
  | false, true => some above
  | false, false => none

/-- Same number with no zero at the end of its digits. -/
def Scientific.stripped : Nat → Scientific → Scientific
  | 0, s => s
  | steps + 1, s =>
      if s.digits % 10 == 0 && s.digits != 0 then
        stripped steps ⟨s.digits / 10, s.exponent + 1⟩
      else s

/-- First grid, from one digit upwards, that has a neighbour in the interval. -/
def Interval.search (i : Interval) (tie : Tie) (top : Int) : Nat → Nat → Option Scientific
  | 0, _ => none
  | steps + 1, count =>
      match i.neighbour? tie (top - count) with
      | some n => some ⟨n, top - count⟩
      | none => i.search tie top steps (count + 1)

/-- Shortest decimal of a positive magnitude; seventeen digits always suffice. -/
def Binary.shortest (tie : Tie) (b : Binary) : Scientific :=
  if b.mantissa == 0 then ⟨0, 0⟩
  else
    match b.interval.search tie (magnitude b.numerator b.denominator) 17 1 with
    | some s => s.stripped 17
    | none => ⟨b.numerator / b.denominator, 0⟩

end ActorScript.Decimal
