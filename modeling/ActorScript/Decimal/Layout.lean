import ActorScript.Decimal.Shortest

/-! # Number formats

A layout says how the digits of a double are chosen and set: where ties go, which
decimal exponents are written positionally, whether whole numbers keep a point, and
how exponents look.
-/

namespace ActorScript.Decimal

structure Layout where
  /-- Which of two shortest decimals at the same distance is written. -/
  tie : Tie
  /-- Least and greatest exponent of the leading digit written without an exponent part. -/
  positional : Int × Int
  /-- Whole numbers end in `.0`. -/
  keepPoint : Bool
  /-- A positive exponent carries a sign. -/
  signExponent : Bool
  deriving Repr

/-- Digits never leave positional form. -/
def Layout.plain : Layout := ⟨.up, (-400, 400), false, false⟩

/-- Listings show a point or an exponent in every number. -/
def Layout.listing : Layout := ⟨.up, (-4, 15), true, false⟩

def Layout.json : Layout := ⟨.even, (-5, 15), true, true⟩

def zeros (n : Nat) : List Char :=
  List.replicate n '0'

/-- Digits with the point set by the exponent. -/
def Layout.fixedPoint (l : Layout) (digits : List Char) (exponent : Int) : List Char :=
  if 0 ≤ exponent then
    digits ++ zeros exponent.toNat ++ if l.keepPoint then ['.', '0'] else []
  else
    let places := (-exponent).toNat
    if digits.length ≤ places then
      ['0', '.'] ++ zeros (places - digits.length) ++ digits
    else
      digits.take (digits.length - places) ++ ['.'] ++ digits.drop (digits.length - places)

/-- Digits with a point after the first and the exponent of the leading one. -/
def Layout.exponential (l : Layout) (digits : List Char) (leading : Int) : List Char :=
  let fraction := digits.drop 1
  digits.take 1 ++ (if fraction.isEmpty then [] else '.' :: fraction) ++ ['e'] ++
    (if l.signExponent && 0 ≤ leading then ['+'] else []) ++ (toString leading).toList

def Layout.magnitude (l : Layout) (s : Scientific) : List Char :=
  let digits := Nat.toDigits 10 s.digits
  let leading := s.exponent + digits.length - 1
  if l.positional.1 ≤ leading && leading ≤ l.positional.2 then l.fixedPoint digits s.exponent
  else l.exponential digits leading

def Layout.format (l : Layout) (x : Float) : String :=
  match decode x with
  | .nan => "NaN"
  | .infinite negative => if negative then "-inf" else "inf"
  | .finite b => String.ofList ((if b.negative then ['-'] else []) ++ l.magnitude (b.shortest l.tie))

/-- Text of a double with a fixed number of places, a half going to the even neighbour. -/
def fixed (places : Nat) (x : Float) : String :=
  match decode x with
  | .nan => "NaN"
  | .infinite negative => if negative then "-inf" else "inf"
  | .finite b =>
      let units := Tie.even.nearest (b.numerator * Nat.pow 10 places) b.denominator
      let digits := Nat.toDigits 10 units
      let digits := zeros (places + 1 - digits.length) ++ digits
      let point := digits.length - places
      String.ofList ((if b.negative then ['-'] else []) ++ digits.take point ++
        (if places == 0 then [] else '.' :: digits.drop point))

end ActorScript.Decimal
