/-!
# Scalars

The solver computes over any type with arithmetic, an order test and decimal literals. No law is
asked of them, so binary floating point, with its infinities and NaN, and the rationals are both
instances: the first is what programs run on, the second is where statements about exact arithmetic
live.

## Main definitions

* `Scalar` — arithmetic, comparison, decimal literals, and the tolerance under which a number counts
  as zero
* `Scalar.negligible` — below the tolerance, or zero
* `Scalar.magnitude`, `Scalar.atLeast`, `Scalar.clamp` — what the solver builds from comparison
* `Tolerant` — the rationals with a tolerance of one's choice; that of the rationals themselves is
  zero
-/

namespace Cassowary

/-- Numbers that coefficients and values are made of. The comparisons are tests, not an order with
laws: every comparison with a NaN fails, equality included. -/
class Scalar (α : Type) extends
    Zero α, One α, Add α, Sub α, Mul α, Div α, Neg α, LT α, LE α, BEq α, OfScientific α where
  /-- The comparison `<` can be run. -/
  ltDecidable : DecidableLT α
  /-- The comparison `≤` can be run. -/
  leDecidable : DecidableLE α
  /-- Numbers closer to zero than this count as zero. -/
  tolerance : α
  /-- Whether a number lies strictly below positive infinity. -/
  belowTop : α → Bool

namespace Scalar

variable {α : Type} [Scalar α]

instance : DecidableLT α := ltDecidable

instance : DecidableLE α := leDecidable

/-- A number that is not equal to itself. -/
def isNaN (x : α) : Bool := !(x == x)

/-- The number without its sign. -/
def magnitude (x : α) : α := if x < 0 then -x else x

/-- Whether a number counts as zero. -/
def negligible (x : α) : Bool := magnitude x < tolerance || x == 0

/-- The number, raised to `low` where it falls short of it. -/
def atLeast (low x : α) : α := if x < low then low else x

/-- The number, moved to the nearer end of the range `[low, high]` where it lies outside. What
compares with neither end is kept. -/
def clamp (low high x : α) : α := if x < low then low else if high < x then high else x

/-- Binary floating point, with numbers below `1e-8` counting as zero. -/
instance : Scalar Float where
  zero := 0.0
  one := 1.0
  ltDecidable := inferInstance
  leDecidable := inferInstance
  tolerance := 1e-8
  belowTop x := x < 1.0 / 0.0

/-- Rational arithmetic in which numbers below `tolerance` count as zero. -/
@[reducible] def rat (tolerance : Rat) : Scalar Rat where
  zero := 0
  one := 1
  ltDecidable := inferInstance
  leDecidable := inferInstance
  tolerance := tolerance
  belowTop _ := true

/-- Exact arithmetic: only zero counts as zero. -/
instance : Scalar Rat := rat 0

end Scalar

/-- The rationals, as the numbers of an arithmetic where those below the given one count as zero. -/
def Tolerant (_ : Rat) : Type := Rat

instance (tolerance : Rat) : Scalar (Tolerant tolerance) := Scalar.rat tolerance

end Cassowary
