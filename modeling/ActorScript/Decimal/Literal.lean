import ActorScript.Decimal.Shortest
import ActorScript.Text.Fold

/-! # Decimal literals

The double nearest to a number written in decimal.
-/

namespace ActorScript.Decimal

/-- The nearest double to `digits * 10 ^ exponent`. Numbers beyond the range of
doubles are infinite, and numbers far below it are zero. -/
def Scientific.toFloat (s : Scientific) : Float :=
  let top := s.exponent + digitCount s.digits
  if s.digits == 0 || top < -330 then 0.0
  else if 310 < top then 1.0 / 0.0
  else Float.ofScientific s.digits (s.exponent < 0) s.exponent.natAbs

/-- Value of a literal from its digits before and after the point and its exponent part. -/
def literal (whole fraction : List Char) (exponent : Int) : Float :=
  (Scientific.mk (Text.decimalValue (whole ++ fraction)) (exponent - fraction.length)).toFloat

end ActorScript.Decimal
