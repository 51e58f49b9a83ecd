/-!
# The exact value of a floating-point number

A finite floating-point number is an integer times a power of two. Digits are chosen from this form,
in exact integer arithmetic.

## Main definitions

* `Binary` — `± significand * 2 ^ exponent`, with the shape of its neighbourhood
* `Binary.ofBits?` — the exact value of a finite number
-/

namespace Cassowary

/-- The number `significand * 2 ^ exponent`, negated if `negative`. At a power of two the neighbour
below is only half as far away as the neighbour above; `narrowBelow` tells where that is so. -/
structure Binary where
  negative : Bool
  significand : Nat
  exponent : Int
  narrowBelow : Bool

namespace Binary

/-- The value without its sign as a quotient of naturals, each multiplied by a power of two. -/
def scale (x : Binary) : Nat × Nat :=
  if x.exponent < 0 then (1, 1 <<< x.exponent.natAbs) else (1 <<< x.exponent.natAbs, 1)

/-- The number that a 64-bit pattern stands for, unless it is infinite or not a number. -/
def ofBits? (bits : UInt64) : Option Binary :=
  let negative := bits >>> 63 == 1
  let biased := ((bits >>> 52) &&& 0x7ff).toNat
  let fraction := (bits &&& 0xfffffffffffff).toNat
  if biased = 0x7ff then none
  else if biased = 0 then some ⟨negative, fraction, -1074, false⟩
  else some ⟨negative, 1 <<< 52 + fraction, biased - 1075, fraction = 0 ∧ 1 < biased⟩

end Binary

end Cassowary
