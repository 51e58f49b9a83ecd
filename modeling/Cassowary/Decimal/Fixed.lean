import Cassowary.Decimal.Shortest

/-!
# A fixed number of places

The exact value is rounded once, and a value halfway between two texts goes to the even digit.

## Main definitions

* `Decimal.roundToEven` — a quotient of naturals rounded to the nearest, ties to even
* `Decimal.writeFixed` — a floating-point number with a fixed number of places
-/

namespace Cassowary

namespace Decimal

/-- The natural nearest to `num / den`, and the even one of two equally near. -/
def roundToEven (num den : Nat) : Nat :=
  let whole := num / den
  match compare (2 * (num % den)) den with
  | .lt => whole
  | .gt => whole + 1
  | .eq => if whole % 2 = 0 then whole else whole + 1

/-- The number with the given count of digits after the point. A negative number keeps its sign
where nothing but zeros is left of it. -/
def writeFixed (places : Nat) (x : Float) : String :=
  writeWith (fun b =>
    let (num, den) := b.scale
    signed b.negative (pointed places (roundToEven (b.significand * num * Nat.pow 10 places) den))) x

end Decimal

end Cassowary
