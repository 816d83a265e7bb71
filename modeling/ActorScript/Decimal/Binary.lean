/-! # Floats as whole numbers

A finite double is a sign, a whole mantissa and a power of two. Everything that
has to be exact about floats is computed on these three numbers.
-/

namespace ActorScript.Decimal

/-- The number `mantissa * 2 ^ exponent`, with a sign kept also for zero. -/
structure Binary where
  negative : Bool
  mantissa : Nat
  exponent : Int
  deriving DecidableEq, Repr

inductive Decoded where
  | nan
  | infinite (negative : Bool)
  | finite (value : Binary)
  deriving DecidableEq, Repr

/-- Mantissa of the least double of each power of two, and the number of fractions. -/
def leadingMantissa : Nat := 0x10000000000000

def signBit : Nat := 0x8000000000000000

/-- Reads sign, exponent field and fraction field of the 64-bit form. -/
def decode (x : Float) : Decoded :=
  let bits := x.toBits.toNat
  let negative : Bool := signBit ≤ bits
  let field : Nat := bits / leadingMantissa % 2048
  let fraction := bits % leadingMantissa
  if field == 2047 then
    if fraction == 0 then .infinite negative else .nan
  else if field == 0 then .finite ⟨negative, fraction, -1074⟩
  else .finite ⟨negative, leadingMantissa + fraction, (field : Int) - 1075⟩

namespace Binary

/-- Numerator of the magnitude over `denominator`. -/
def numerator (b : Binary) : Nat :=
  b.mantissa * Nat.pow 2 b.exponent.toNat

def denominator (b : Binary) : Nat :=
  Nat.pow 2 (-b.exponent).toNat

def truncated (b : Binary) : Int :=
  if b.negative then -(b.numerator / b.denominator : Nat) else (b.numerator / b.denominator : Nat)

/-- The double with this value, for a mantissa of at most 53 bits and an exponent
from -1074 on. The mantissa moves up as far as its width and the least exponent allow;
fields and mantissa then add up to the 64-bit form. -/
def toFloat (b : Binary) : Float :=
  let room := min (52 - b.mantissa.log2) (b.exponent + 1074).toNat
  let exponent := (b.exponent + 1074).toNat - room
  let magnitude :=
    if b.mantissa == 0 then 0 else exponent * leadingMantissa + b.mantissa * Nat.pow 2 room
  Float.ofBits (UInt64.ofNat (magnitude + if b.negative then signBit else 0))

/-- Remainder of magnitudes at a common exponent, with the sign of the dividend. -/
def remainder (a b : Binary) : Binary :=
  let common := min a.exponent b.exponent
  let dividend := a.mantissa * Nat.pow 2 (a.exponent - common).toNat
  let divisor := b.mantissa * Nat.pow 2 (b.exponent - common).toNat
  ⟨a.negative, dividend % divisor, common⟩

end Binary

/-- The double equal to a signed word. -/
def ofInt32 (v : Int32) : Float :=
  if v < 0 then -(-v).toUInt32.toFloat else v.toUInt32.toFloat

/-- A double cut towards zero and held to a range. What is no number gives zero. -/
def truncateTo (least greatest : Int) (x : Float) : Int :=
  match decode x with
  | .nan => 0
  | .infinite negative => if negative then least else greatest
  | .finite b => max least (min greatest b.truncated)

def toInt32 (x : Float) : Int32 :=
  Int32.ofInt (truncateTo (-0x80000000) 0x7fffffff x)

def toUInt32 (x : Float) : UInt32 :=
  UInt32.ofNat (truncateTo 0 0xffffffff x).toNat

def notANumber : Float := 0.0 / 0.0

/-- Exact remainder of a truncated division. It is not a number when the
dividend is infinite or the divisor zero, and an infinite divisor leaves the
dividend as it is. -/
def remainder (x y : Float) : Float :=
  match decode x, decode y with
  | .finite _, .infinite _ => x
  | .finite a, .finite b => if b.mantissa == 0 then notANumber else (a.remainder b).toFloat
  | _, _ => notANumber

def isWhole (x : Float) : Bool :=
  match decode x with
  | .finite b => b.numerator % b.denominator == 0
  | _ => false

def isFinite (x : Float) : Bool :=
  match decode x with
  | .finite _ => true
  | _ => false

end ActorScript.Decimal
