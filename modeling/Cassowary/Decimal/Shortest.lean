import Cassowary.Decimal
import Cassowary.Decimal.Binary

/-!
# The shortest decimal that reads back

Every real number nearer to a floating-point number than to its neighbours is read as it. Of the
decimals in that interval the shortest is written, and of several the nearest.

## Main definitions

* `Binary.Grid` — the multiples of a power of ten, compared with a number in integer arithmetic
* `Binary.shortest` — the nearest of the decimals with the fewest digits that read back
* `Decimal.write` — the text of a floating-point number
-/

namespace Cassowary

namespace Binary

/-- The least `k` with the nonzero value below `10 ^ k`. -/
def reach (x : Binary) : Int :=
  let (num, den) := x.scale
  let value := x.significand * num
  if den ≤ value then Decimal.digitCount (value / den)
  else 1 - Decimal.digitCount ((den - 1) / value)

/-- The grid of multiples of `10 ^ power` against which the number is laid: quarters of the unit in
the number's last place and steps of the grid, both as multiples of one length. -/
structure Grid where
  power : Int
  quarter : Nat
  step : Nat

/-- The grid of multiples of `10 ^ power`. -/
def grid (x : Binary) (power : Int) : Grid :=
  let (num, den) := x.scale
  if power < 0 then ⟨power, num * Nat.pow 10 power.natAbs, den * 4⟩
  else ⟨power, num, den * 4 * Nat.pow 10 power.natAbs⟩

/-- Whether the `n`-th point of the grid reads back: it lies between the halfway points to the two
neighbours, or on one of them if the significand is even. -/
def readsBack (x : Binary) (g : Grid) (n : Nat) : Bool :=
  -- Halfway to a neighbour is two quarters, or one where the neighbour is half as far away
  let low := (4 * x.significand - if x.narrowBelow then 1 else 2) * g.quarter
  let high := (4 * x.significand + 2) * g.quarter
  let point := n * g.step
  if x.significand % 2 = 0 then low ≤ point ∧ point ≤ high else low < point ∧ point < high

/-- The point of the grid that reads back: of the two next to the number the nearer, and the upper
one where both are equally near. -/
def nearest? (x : Binary) (g : Grid) : Option Nat :=
  let value := 4 * x.significand * g.quarter
  let below := value / g.step
  let upperFirst := (2 * below + 1) * g.step ≤ 2 * value
  let candidates := if upperFirst then [below + 1, below] else [below, below + 1]
  candidates.find? (x.readsBack g)

/-- The decimal at a point of the grid. One digit more than the grid has occurs only where rounding
carried through all of them, which leaves ten steps: one of the next larger power. -/
def Grid.decimal (g : Grid) (negative : Bool) (point : Nat) : Decimal :=
  if point = 10 then ⟨negative, 1, g.power + 1⟩ else ⟨negative, point, g.power⟩

/-- The shortest decimal that reads back. Seventeen digits always suffice; the exact value stands
behind them. -/
def shortest (x : Binary) : Decimal :=
  if x.significand = 0 then ⟨x.negative, 0, 0⟩
  else
    -- Grids from coarse to fine: the first with a point that reads back has the fewest digits
    let found := (List.range 17).findSome? fun (n : Nat) =>
      let g := x.grid (x.reach - (n + 1))
      (x.nearest? g).map (g.decimal x.negative)
    found.getD <|
      if x.exponent < 0 then
        ⟨x.negative, x.significand * Nat.pow 5 x.exponent.natAbs, x.exponent⟩
      else ⟨x.negative, x.significand <<< x.exponent.natAbs, 0⟩

end Binary

namespace Decimal

/-- The text of a number that may be infinite or not a number. Finite ones are laid out by
`layout`. -/
def writeWith (layout : Binary → String) (x : Float) : String :=
  match Binary.ofBits? x.toBits with
  | some b => layout b
  | none => if x.isNaN then "NaN" else signed (x < 0) "inf"

/-- The shortest text that reads back as the number, in positional notation. -/
def write (x : Float) : String := writeWith (·.shortest.text) x

end Decimal

end Cassowary
