/-!
# Doubles with two decimal places

The text of a double rounded to two places after the point. The double is taken apart into sign,
significand and a power of two, and rounded once, exactly; a tie goes to the even neighbour. The
sign is kept also when the result is zero, and there is never an exponent.
-/

namespace Flowchart.Decimal

/-- The number that a double stands for. -/
inductive Magnitude where
  /-- Not a number. -/
  | notANumber
  /-- Beyond every number. -/
  | infinite
  /-- The number `significand * 2 ^ power / 2 ^ 1074`. -/
  | finite (significand power : Nat)
  deriving DecidableEq

/-- Whether the sign bit of a double is set. -/
def isNegative (bits : UInt64) : Bool :=
  bits.toNat.testBit 63

/-- The bit that is not written in the fraction of most doubles: the 52nd power of two. -/
def hidden : Nat := 0x10000000000000

/-- The number that a double stands for, its sign apart: 11 bits of exponent over 52 bits of
fraction. -/
def magnitude (bits : UInt64) : Magnitude :=
  let fraction := bits.toNat % hidden
  let exponent := bits.toNat / hidden % 0x800
  if exponent = 0x7ff then
    if fraction = 0 then .infinite else .notANumber
  else if exponent = 0 then .finite fraction 0
  else .finite (hidden + fraction) (exponent - 1)

/-- The quotient of two numbers rounded to the nearest, a tie to the even neighbour. -/
def roundDiv (num den : Nat) : Nat :=
  let low := num / den
  let rest := num % den
  if 2 * rest < den then low
  else if den < 2 * rest then low + 1
  else low + low % 2

/-- Hundredths written with a point: `1234` is `12.34`. -/
def hundredthsText (n : Nat) : String :=
  (n / 100).repr ++ "." ++ (n % 100 / 10).repr ++ (n % 10).repr

/-- A double with two places after the point. -/
def fixed2 (bits : UInt64) : String :=
  let sign := if isNegative bits then "-" else ""
  match magnitude bits with
  | .notANumber => "NaN"
  | .infinite => sign ++ "inf"
  | .finite significand power =>
    sign ++ hundredthsText (roundDiv (100 * (significand <<< power)) (1 <<< 1074))

end Flowchart.Decimal
