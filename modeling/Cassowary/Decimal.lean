/-!
# Decimal numbers

A decimal is a sign, a coefficient and a power of ten. Numbers are read into it, and the digits of
a number to be written are chosen in it, so that both directions stay exact until one rounding.

## Main definitions

* `Decimal` — `± coefficient * 10 ^ exponent`
* `Decimal.toFloat` — the nearest binary floating-point number
* `Decimal.text` — positional notation, without an exponent and without a superfluous point
-/

namespace Cassowary

/-- The number `coefficient * 10 ^ exponent`, negated if `negative`. Zero keeps its sign. -/
structure Decimal where
  negative : Bool
  coefficient : Nat
  exponent : Int
  deriving Repr, DecidableEq

namespace Decimal

/-- How many decimal digits a natural number is written with. -/
def digitCount (n : Nat) : Nat := (Nat.toDigits 10 n).length

/-- The decimal without its sign, rounded to the nearest binary number. The decimal point may stand
so far out that only zero or infinity is left; such powers of ten are not computed. -/
def magnitude (d : Decimal) : Float :=
  -- The number lies below `10 ^ reach`
  let reach := d.exponent + digitCount d.coefficient
  if d.coefficient = 0 ∨ reach < -400 then 0.0
  else if 400 < reach then 1.0 / 0.0
  else Float.ofScientific d.coefficient (d.exponent < 0) d.exponent.natAbs

/-- The decimal rounded to the nearest binary number. -/
def toFloat (d : Decimal) : Float := if d.negative then -d.magnitude else d.magnitude

/-- The digits of `n`, with zeros in front up to the given width. -/
def padded (width n : Nat) : List Char :=
  let digits := Nat.toDigits 10 n
  List.replicate (width - digits.length) '0' ++ digits

/-- The digits of `n` with a point before the last `places` of them, and at least one digit before
the point. There is no point without places. -/
def pointed (places n : Nat) : String :=
  let digits := padded (places + 1) n
  let (whole, fraction) := digits.splitAt (digits.length - places)
  if places = 0 then String.ofList whole else String.ofList (whole ++ '.' :: fraction)

/-- Marks the text of a negative number. -/
def signed (negative : Bool) (text : String) : String := if negative then "-" ++ text else text

/-- Positional notation: all the digits, however far from the point they start. -/
def text (d : Decimal) : String :=
  signed d.negative <|
    if d.exponent < 0 then pointed d.exponent.natAbs d.coefficient
    else pointed 0 (d.coefficient * Nat.pow 10 d.exponent.natAbs)

end Decimal

end Cassowary
