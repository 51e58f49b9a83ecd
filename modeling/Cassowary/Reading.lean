import Cassowary.Scalar

/-!
# Readings

What a solver tells about a variable: its value, or why there is none.

## Main definitions

* `Status` — whether there is a value
* `Status.of` — the status that a number has where a missing value is told by a number
* `Reading` — a value or the reason why there is none
-/

namespace Cassowary

/-- Whether there is a value. -/
inductive Status where
  /-- The variable has a value. -/
  | ok
  /-- No constraint mentions the variable. -/
  | notFound
  /-- The solver holds a system that it could not solve. -/
  | unsolvable
  deriving DecidableEq, Repr

namespace Status

/-- The status of a number: one that is no number stands for a variable that is not found, and
positive infinity for an unsolvable system. -/
def of {α : Type} [Scalar α] (x : α) : Status :=
  if Scalar.isNaN x then notFound else if Scalar.belowTop x then ok else unsolvable

end Status

/-- The value of a variable, or why it has none. -/
inductive Reading (α : Type) where
  | value (x : α)
  | notFound
  | unsolvable
  deriving DecidableEq, Repr

namespace Reading

variable {α : Type} [Scalar α]

/-- Whether there is a value. Where the arithmetic has run into a number that stands for a missing
value, there is none. -/
def status : Reading α → Status
  | value x => .of x
  | notFound => .notFound
  | unsolvable => .unsolvable

/-- The value of a reading, or another number where there is none. -/
def getD (r : Reading α) (fallback : α) : α :=
  match r with
  | value x => if Status.of x = .ok then x else fallback
  | _ => fallback

/-- The text of a reading. -/
def text (write : α → String) : Reading α → String
  | value x => write x
  | notFound => "NaN"
  | unsolvable => "inf"

end Reading

end Cassowary
