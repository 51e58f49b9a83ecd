import Cassowary.Error
import Cassowary.Tableau.Journal

/-!
# The simplex tableau

A tableau has a row for each basic variable, which says what the variable is in terms of those that
are not basic, and an objective in the same terms. The values of a tableau are those where the
variables that are not basic are zero.

Slack, error and dummy variables may not be negative. A basic one whose row has a negative constant
waits in a queue until the dual simplex method repairs it.

Everything that changes the rows, their order or the objective goes through the few operations of
this module, and each of them tells the journal first.

## Main definitions

* `Tableau` — rows, objective, queue, and the counters
* `Tableau.begin`, `Tableau.commit`, `Tableau.rollback` — an operation that can be undone
* `Tableau.eraseRow`, `Tableau.putRow`, `Tableau.revise`, `Tableau.modifyObjective` — the changes
* `Tableau.eliminate` — a key replaced by a row throughout
* `Tableau.enter` — a row made the row of its key
-/

namespace Cassowary

/-- The rows of the basic variables, and an objective. -/
structure Tableau (α : Type) where
  /-- The rows by basic variable, in the order in which they came. -/
  rows : Table Key (Row α)
  /-- What is to be made as small as possible. -/
  objective : Row α
  /-- What is to be made as small as possible while a first feasible basis is sought. -/
  artificial : Option (Row α)
  /-- Basic variables whose row may have a negative constant, the last queued first. -/
  infeasible : List Key
  /-- The index of the next symbol. -/
  nextId : Nat
  /-- Whether an optimisation has been put off. -/
  deferred : Bool
  /-- How many pivots there have been. -/
  pivots : Nat
  /-- How far optimality, feasibility and redundancy may be missed. -/
  epsilon : α
  /-- The most pivots that one optimisation may take. -/
  maxIterations : Nat
  /-- What the running operation has to restore if it is undone. -/
  journal : Option (Journal α)

namespace Tableau

variable {α : Type} [Scalar α]

/-- A tableau without rows. -/
def empty (epsilon : α) (maxIterations : Nat) : Tableau α where
  rows := ∅
  objective := .ofConstant 0
  artificial := none
  infeasible := []
  nextId := 0
  deferred := false
  pivots := 0
  epsilon := epsilon
  maxIterations := maxIterations
  journal := none

/-- The tableau without its rows and counts. -/
def clear (t : Tableau α) : Tableau α := empty t.epsilon t.maxIterations

/-- Whether a key is basic. -/
def isBasic (t : Tableau α) (k : Key) : Bool := t.rows.contains k

/-- Whether the row of a key has a constant that the key may not have. -/
def violates (t : Tableau α) (k : Key) (row : Row α) : Bool :=
  !k.unrestricted && decide (row.constant < -t.epsilon)

/-! ## Undoing -/

/-- A journal in which no change is noted yet. -/
def freshJournal (t : Tableau α) : Journal α where
  rows := ∅
  order := none
  objective := none
  infeasible := t.infeasible
  nextId := t.nextId
  deferred := t.deferred
  pivots := t.pivots

/-- Starts an operation that can be undone. -/
def begin (t : Tableau α) : Tableau α := { t with journal := some t.freshJournal }

/-- Ends the operation and keeps its changes. -/
def commit (t : Tableau α) : Tableau α := { t with journal := none }

/-- Ends the operation and undoes its changes. -/
def rollback (t : Tableau α) : Tableau α :=
  match t.journal with
  | none => t
  | some j =>
    { t with
      rows := j.restoreRows t.rows
      objective := j.objective.getD t.objective
      artificial := none
      infeasible := j.infeasible
      nextId := j.nextId
      deferred := j.deferred
      pivots := j.pivots
      journal := none }

/-- Tells the journal something, if there is one. -/
def note (t : Tableau α) (tell : Journal α → Journal α) : Tableau α :=
  { t with journal := t.journal.map tell }

/-! ## Changes -/

/-- Takes the row of a key away, if it has one. -/
def eraseRow (t : Tableau α) (k : Key) : Tableau α :=
  match t.rows.get? k with
  | some row =>
    { t.note fun j => (j.noteOrder t.rows.keys).noteRow k (some row) with rows := t.rows.erase k }
  | none => t

/-- Gives a key a row. -/
def putRow (t : Tableau α) (k : Key) (row : Row α) : Tableau α :=
  -- A key that has a row already keeps its place, so the order need not be noted
  let tell (j : Journal α) : Journal α :=
    (if t.isBasic k then j else j.noteOrder t.rows.keys).noteRow k (t.rows.get? k)
  { t.note tell with rows := t.rows.insert k row }

/-- Changes the objective. -/
def modifyObjective (t : Tableau α) (f : Row α → Row α) : Tableau α :=
  { t.note (·.noteObjective t.objective) with objective := f t.objective }

/-- Changes the rows for which `change` has another one. -/
def revise (t : Tableau α) (change : Key → Row α → Option (Row α)) : Tableau α :=
  -- Only rows that change are noted: the journal grows with the change, not with the tableau
  let touched := t.rows.entries.filter fun e => (change e.1 e.2).isSome
  { t.note (·.noteRows touched) with rows := t.rows.mapValues fun k row => (change k row).getD row }

/-- The keys of the rows that `change` leaves with a constant which they may not have. -/
def violations (t : Tableau α) (change : Key → Row α → Option (Row α)) : List Key :=
  (t.rows.entries.filter fun e => (change e.1 e.2).any (t.violates e.1)).map Prod.fst

/-- Changes rows, and queues those that the change leaves violated. -/
def reviseAndQueue (t : Tableau α) (change : Key → Row α → Option (Row α)) : Tableau α :=
  { t.revise change with infeasible := (t.violations change).reverse ++ t.infeasible }

/-- Replaces a key by a row that it is equal to, in every row and in the objectives. Rows that are
violated then are queued. -/
def eliminate (t : Tableau α) (k : Key) (row : Row α) : Tableau α :=
  -- Constants may move only in rows that have the key, so only those are looked at
  let t := t.reviseAndQueue fun _ other => other.substitute? (.unit k) row
  let t := if t.objective.contains k then t.modifyObjective (·.substitute (.unit k) row) else t
  { t with artificial := t.artificial.map (·.substitute (.unit k) row) }

/-- Takes a key away from every row and from the objective. -/
def dropColumn (t : Tableau α) (k : Key) : Tableau α :=
  let t := t.revise fun _ row => if row.contains k then some (row.remove k) else none
  if t.objective.contains k then t.modifyObjective (·.remove k) else t

/-- Queues a key if a row violates it. -/
def enqueue (t : Tableau α) (k : Key) (row : Row α) : Tableau α :=
  if t.violates k row then { t with infeasible := k :: t.infeasible } else t

/-- Makes a row the row of its key: the key is replaced by it everywhere else. -/
def enter (t : Tableau α) (k : Key) (row : Row α) : Tableau α :=
  ((t.eliminate k row).enqueue k row).putRow k row

/-- Solves `0 = row` for one of its keys and makes the result the row of the key. -/
def install (t : Tableau α) (row : Row α) (k : Key) : Tableau α := t.enter k (row.solveFor k)

/-- Makes a key basic in place of another one, in whose row it occurs. -/
def pivot (t : Tableau α) (entering leaving : Key) : Tableau α :=
  match t.rows.get? leaving with
  | some row =>
    let t := (t.eraseRow leaving).enter entering (row.solveForPair leaving entering)
    { t with pivots := t.pivots + 1 }
  | none => t

/-- A row with the basic variables in it replaced by their rows. -/
def substituteBasics (t : Tableau α) (row : Row α) : Row α :=
  (row.keys.filterMap fun k => (t.rows.get? k).map (k, ·)).foldl
    (fun row e => row.substitute (.unit e.1) e.2) row

end Tableau

end Cassowary
