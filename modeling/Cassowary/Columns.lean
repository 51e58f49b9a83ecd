import Cassowary.Solver.Basic

/-!
# Columns side by side

A width is split into columns with a gap between neighbours. Every column has a least width, the
columns fill the width, and as far as they can they are equally wide. The first one may be dragged
to a width, and the others make room for it.

## Main definitions

* `Columns` — a number of columns and the measures they have to keep
* `Columns.requirements` — the constraints on their edges and widths
* `Columns.solve` — a solver that holds them
-/

namespace Cassowary

/-- A split into columns. -/
structure Columns (α : Type) where
  count : Nat
  /-- The width of all the columns together. -/
  total : α
  /-- The distance between neighbours. -/
  gap : α
  /-- The least width of a column. -/
  least : α
  /-- The width that the first column is dragged to. -/
  drag : Option α
  deriving Repr

namespace Columns

variable {α : Type} [Scalar α]

/-- The left edge of a column. -/
def left (i : Nat) : Variable := .external (2 * i)

/-- The width of a column. -/
def width (i : Nat) : Variable := .external (2 * i + 1)

/-- The first column starts at zero, and the last one ends at the total width. -/
def ends (c : Columns α) : List (Constraint α × Strength α) :=
  let last := c.count - 1
  [(.ofFormulas (.var (left 0)) .equal (.number 0), .required),
    (.ofFormulas (.add (.var (left last)) (.var (width last))) .equal (.number c.total), .required)]

/-- Each column starts a gap after the one before it. -/
def chain (c : Columns α) : List (Constraint α × Strength α) :=
  (List.range (c.count - 1)).map fun i =>
    let start := Formula.add (.add (.var (left i)) (.var (width i))) (.number c.gap)
    (.ofFormulas (.var (left (i + 1))) .equal start, .required)

/-- Each column has the least width, and the width of the first one as far as it can. -/
def widths (c : Columns α) : List (Constraint α × Strength α) :=
  (List.range c.count).flatMap fun i =>
    let bound := Constraint.ofFormulas (.var (width i)) .greaterOrEqual (.number c.least)
    let share := Constraint.ofFormulas (.var (width i)) .equal (.var (width 0))
    -- The first width is not compared with itself
    if width i = width 0 then [(bound, .required)] else [(bound, .required), (share, .medium)]

/-- The constraints on the columns. -/
def requirements (c : Columns α) : List (Constraint α × Strength α) :=
  if c.count = 0 then [] else c.ends ++ c.chain ++ c.widths

/-- Inserts constraints until one fails. -/
def insertAll (cs : List (Constraint α × Strength α)) : Attempt (Solver α) Unit :=
  cs.forM fun e => do discard (Solver.insert e.1 e.2)

/-- Inserts the constraints in one batch, and then drags the first column. A batch that cannot be
closed outweighs a constraint that could not be inserted. -/
def arrange (c : Columns α) : Attempt (Solver α) Unit := do
  match ← Solver.inBatch (insertAll c.requirements).outcome with
  | .error cause => throw cause
  | .ok _ => match c.drag with
    | none => pure ()
    | some target => do
      Solver.startEdit (width 0) .strong
      Solver.suggest (width 0) target

/-- A solver that holds the columns. -/
def solve (c : Columns α) (config : Config α) : Except SolverError (Solver α) :=
  match c.arrange.outcome (.ofConfig config) with
  | (.ok _, s) => .ok s
  | (.error cause, _) => .error cause

end Columns

end Cassowary
