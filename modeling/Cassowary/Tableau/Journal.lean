import Cassowary.Row

/-!
# The undo journal

While an operation runs, the journal keeps what the tableau held before it: each row, and the
objective, as they were when the operation first touched them, and the order of the rows as it was
before the first row came or went. The parts that are cheap to copy are copied at the start.

## Main definitions

* `Journal` — the prior content of a tableau, as far as it may have changed
* `Journal.noteRow`, `Journal.noteOrder`, `Journal.noteObjective` — the first note of each kind
  counts
* `Journal.restoreRows` — the rows as they were
-/

namespace Cassowary

/-- What a tableau held before an operation, as far as the operation may have changed it. -/
structure Journal (α : Type) where
  /-- The prior row of each key that was touched, or that the key had none. -/
  rows : Table Key (Option (Row α))
  /-- The prior order of the rows, if any row came or went. -/
  order : Option (List Key)
  /-- The prior objective, if it was touched. -/
  objective : Option (Row α)
  infeasible : List Key
  nextId : Nat
  deferred : Bool
  pivots : Nat

namespace Journal

variable {α : Type}

/-- Notes what a key had before it is touched. -/
def noteRow (j : Journal α) (k : Key) (prior : Option (Row α)) : Journal α :=
  { j with rows := j.rows.insertIfNew k prior }

/-- Notes several rows before they are touched. -/
def noteRows (j : Journal α) (entries : List (Key × Row α)) : Journal α :=
  entries.foldl (fun j e => j.noteRow e.1 (some e.2)) j

/-- Notes the order of the rows before one comes or goes. -/
def noteOrder (j : Journal α) (order : List Key) : Journal α :=
  { j with order := some (j.order.getD order) }

/-- Notes the objective before it is touched. -/
def noteObjective (j : Journal α) (objective : Row α) : Journal α :=
  { j with objective := some (j.objective.getD objective) }

/-- The row that a key had, given the row that it has now. -/
def priorRow (j : Journal α) (k : Key) (current : Option (Row α)) : Option (Row α) :=
  (j.rows.get? k).getD current

/-- The rows as they were, in their order, given the rows that there are now. -/
def restoreRows (j : Journal α) (current : Table Key (Row α)) : Table Key (Row α) :=
  match j.order with
  -- Without a note of the order, no row came or went
  | some order =>
    .ofList (order.filterMap fun k => (j.priorRow k (current.get? k)).map (k, ·))
  | none => current.mapValues fun k row => (j.priorRow k (some row)).getD row

end Journal

end Cassowary
