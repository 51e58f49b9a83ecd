import Cassowary.Tableau.Insertion

/-!
# Moving a target

The target of an equality that may be violated stands in the constant of its equation, next to the
two error variables. To move the target by some amount is to move one of them by as much, wherever
it occurs. The objective stays optimal, so the dual simplex method alone repairs the rows.

## Main definitions

* `Tableau.shift` — the rows with their constants moved
* `Tableau.suggest` — a target moved, and the tableau repaired
-/

namespace Cassowary

namespace Tableau

variable {α : Type} [Scalar α]

/-- Adds to the constants of the rows for which `delta` has an amount, and queues those that are
violated then. -/
def shift (t : Tableau α) (delta : Key → Row α → Option α) : Tableau α :=
  t.reviseAndQueue fun k row => (delta k row).map row.addConstant

/-- The amount by which each row moves with the target of an equality. Where an error variable is
basic, no other row depends on it. -/
def targetShift (t : Tableau α) (plus minus : Key) (delta : α) (k : Key) (row : Row α) : Option α :=
  if t.isBasic plus then if k = plus then some delta else none
  else if t.isBasic minus then if k = minus then some (-delta) else none
  else
    -- Both error variables are zero, and moving the first by `-delta` moves the target by `delta`
    let c := row.coefficientFor plus
    if c == 0 then none else some (-c * delta)

/-- Moves the target of an equality. -/
def suggest (h : Handle) (delta : α) : Attempt (Tableau α) Unit := do
  let t ← get
  if t.deferred then solve
  match h.other with
  | none => pure ()
  | some minus =>
    modify fun t => t.shift (t.targetShift h.marker minus delta)
    dualOptimize

end Tableau

end Cassowary
