import Cassowary.Constraint

/-!
# Rows

A row is a constant and terms with distinct keys. In a tableau it stands for the variable that it is
the row of: `variable = constant + sum of the terms`.

Coefficients are stored divided by a common scale, so that a change of all of them, which happens in
every pivot, is a change of the scale. The scale is multiplied back into the cells when it gets far
from one. No operation lets the scale be seen.

## Main definitions

* `Row` — cells, their scale, and a constant
* `Row.insert`, `Row.insertRow`, `Row.remove`, `Row.substitute` — sums of rows, and one key replaced
  by a row
* `Row.solveFor`, `Row.solveForPair` — the row of a key that occurs in the row; like `substitute`,
  each has a form that tells where the key does not occur
* `Row.terms`, `Row.evaluate`, `Row.text` — what a row says
-/

namespace Cassowary

/-- A constant and terms. The coefficient of a key is its cell times the scale. -/
structure Row (α : Type) where
  cells : Table Key α
  scale : α
  constant : α

namespace Row

variable {α : Type} [Scalar α]

/-- A constant alone. -/
def ofConstant (c : α) : Row α := ⟨∅, 1, c⟩

instance : Inhabited (Row α) := ⟨ofConstant 0⟩

/-! ## Reading a row -/

/-- The keys, oldest first. -/
def keys (r : Row α) : List Key := r.cells.keys

/-- How many terms there are. -/
def size (r : Row α) : Nat := r.cells.size

/-- Whether there are no terms. -/
def isEmpty (r : Row α) : Bool := r.cells.isEmpty

/-- Whether a key has a term. -/
def contains (r : Row α) (k : Key) : Bool := r.cells.contains k

/-- The terms, oldest first. -/
def terms (r : Row α) : List (Term Key α) := r.cells.entries.map fun e => ⟨e.1, e.2 * r.scale⟩

/-- The term of a key. -/
def find? (r : Row α) (k : Key) : Option (Term Key α) :=
  (r.cells.get? k).map fun cell => ⟨k, cell * r.scale⟩

/-- The coefficient of a key, zero for those without a term. -/
def coefficientFor (r : Row α) (k : Key) : α := ((r.find? k).map (·.coefficient)).getD 0

/-- Whether there are no keys but markers of required equalities. -/
def allDummies (r : Row α) : Bool := r.keys.all (·.dummy)

/-- The first key that may enter the basis. -/
def anyPivotable (r : Row α) : Option Key := r.keys.find? (·.pivotable)

/-- The value of the row where each key has a value. -/
def evaluate (r : Row α) (value : Key → α) : α :=
  r.terms.foldl (fun sum t => sum + t.coefficient * value t.var) r.constant

/-! ## Sums -/

/-- Adds to the constant. -/
def addConstant (r : Row α) (delta : α) : Row α := { r with constant := r.constant + delta }

/-- Adds a term. A coefficient that counts as zero afterwards leaves no term. -/
def insert (r : Row α) (t : Term Key α) : Row α :=
  -- Cells are compared by what they stand for, not by what is stored
  let stored := t.coefficient / r.scale
  { r with cells := r.cells.alter t.var fun
      | some cell => if Scalar.negligible ((cell + stored) * r.scale) then none else some (cell + stored)
      | none => if Scalar.negligible t.coefficient then none else some stored }

/-- Adds terms one after the other. -/
def insertAll (r : Row α) (ts : List (Term Key α)) : Row α := ts.foldl insert r

/-- Adds a multiple of another row. -/
def insertRow (r other : Row α) (factor : α) : Row α :=
  (r.addConstant (other.constant * factor)).insertAll (other.terms.map (·.scaled factor))

/-- The row of a constraint, without the relation. -/
def ofConstraint (c : Constraint α) : Row α := (ofConstant c.constant).insertAll c.terms

/-- Takes the term of a key away. -/
def remove (r : Row α) (k : Key) : Row α := { r with cells := r.cells.erase k }

/-- The row with a key replaced by a row that a multiple of it is equal to, if the key has a
term. -/
def substitute? (r : Row α) (target : Term Key α) (replacement : Row α) : Option (Row α) :=
  (r.find? target.var).map fun t =>
    (r.remove target.var).insertRow replacement (t.coefficient / target.coefficient)

/-- Replaces a key by a row that a multiple of it is equal to. -/
def substitute (r : Row α) (target : Term Key α) (replacement : Row α) : Row α :=
  (r.substitute? target replacement).getD r

/-! ## Multiples -/

/-- The negated row. -/
def reverseSign (r : Row α) : Row α := { r with scale := -r.scale, constant := -r.constant }

/-- Whether the constant is negative. -/
def isNegative (r : Row α) : Bool := r.constant < 0

/-- The row or the negated row, whichever has a constant that is not negative. -/
def normalize (r : Row α) : Row α := if r.isNegative then r.reverseSign else r

/-- The smallest scale that is left as it is. -/
def scaleFloor : α := 1e-6

/-- The largest scale that is left as it is. -/
def scaleCeiling : α := 1e6

/-- Multiplies a scale that is far from one back into the cells. -/
def foldScale (r : Row α) : Row α :=
  let size := Scalar.magnitude r.scale
  if scaleFloor ≤ size ∧ size ≤ scaleCeiling then r
  else { r with cells := r.cells.mapValues fun _ cell => cell * r.scale, scale := 1 }

/-! ## Solving -/

/-- From `0 = row`, the row of a key, if the key has a term. -/
def solveFor? (r : Row α) (k : Key) : Option (Row α) :=
  (r.find? k).map fun t =>
    -- `0 = c * k + rest` says that `k` is the rest divided by `-c`
    let factor := -1 / t.coefficient
    let rest := r.remove k
    foldScale { rest with scale := rest.scale * factor, constant := rest.constant * factor }

/-- From `0 = row`, the row of a key. Without a term for the key nothing changes. -/
def solveFor (r : Row α) (k : Key) : Row α := (r.solveFor? k).getD r

/-- The equation `0 = row - basic`, if the row has a term for `k`. -/
def equated (r : Row α) (basic k : Key) : Row α :=
  if r.contains k then r.insert ⟨basic, -1⟩ else r

/-- From `basic = row`, the row of a key, if the key has a term. -/
def solveForPair? (r : Row α) (basic k : Key) : Option (Row α) := (r.equated basic k).solveFor? k

/-- From `basic = row`, the row of a key. -/
def solveForPair (r : Row α) (basic k : Key) : Row α := (r.equated basic k).solveFor k

/-! ## Text -/

/-- The text of a number that is added to something: its sign stands apart. -/
def addend (write : α → String) (x : α) : String :=
  if x < 0 then " - " ++ write (-x) else " + " ++ write x

/-- The text of a row: the terms in order, then the constant. -/
def text (write : α → String) (r : Row α) : String :=
  match r.terms with
  | [] => write r.constant
  | first :: rest =>
    first.text write ++ String.join (rest.map fun t => addend write t.coefficient ++ "*" ++ t.var.text)
      ++ addend write r.constant

end Row

end Cassowary
