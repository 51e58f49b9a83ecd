import Cassowary.Reading
import Cassowary.Solver.State

/-!
# The incremental solver

A solver holds constraints and keeps the variables at values that satisfy the required ones and
violate the others at the least cost. Constraints come and go one at a time, and each change starts
from the solution before it.

An edit variable has a target that moves. It is held to the target by a constraint that may be
violated.

In a batch, solving is put off to the end. An operation that fails is undone, and a batch that fails
at its end is undone as a whole. A solver may be told not to undo anything; then a failure leaves it
poisoned, without values, until it is cleared.

## Main definitions

* `Solver` — a state, an open batch, and counters
* `Solver.insert`, `Solver.remove` — constraints
* `Solver.startEdit`, `Solver.stopEdit`, `Solver.suggest` — edit variables
* `Solver.openBatch`, `Solver.closeBatch`, `Solver.inBatch`, `Solver.clear`
* `Solver.read`, `Solver.stats`, `Solver.dump` — what a solver tells
-/

namespace Cassowary

/-- An open batch. -/
structure Batch (α : Type) where
  /-- The state at the start, if the batch can be undone. -/
  snapshot : Option (State α)

/-- A solver. -/
structure Solver (α : Type) where
  config : Config α
  state : State α
  batch : Option (Batch α)
  /-- Whether a failure was not undone. -/
  poisoned : Bool
  /-- How many constraints were inserted. -/
  insertions : Nat
  /-- How many constraints were removed. -/
  removals : Nat
  /-- How many operations failed. -/
  failures : Nat

/-- Counts of what a solver holds and has done. -/
structure Stats where
  constraints : Nat
  rows : Nat
  editVariables : Nat
  pivots : Nat
  insertions : Nat
  removals : Nat
  failures : Nat
  deriving DecidableEq, Repr

namespace Solver

variable {α : Type} [Scalar α]

/-- A solver without constraints. -/
def ofConfig (config : Config α) : Solver α := ⟨config, .empty config, none, false, 0, 0, 0⟩

instance : Inhabited (Solver α) := ⟨ofConfig .default⟩

/-! ## What a solver tells -/

/-- Whether a batch is open. -/
def isBatching (s : Solver α) : Bool := s.batch.isSome

/-- Whether a constraint is held. -/
def holds (s : Solver α) (h : Handle) : Bool := s.state.constraints.contains h

/-- Whether a variable is an edit variable. -/
def isEdit (s : Solver α) (x : Variable) : Bool := s.state.edits.contains x

/-- The value of a variable. One that is not basic is zero. In a batch, values need not be optimal
yet. -/
def read (s : Solver α) (x : Variable) : Reading α :=
  if s.poisoned then .unsolvable
  else match s.state.tableau.rows.get? x.key with
    | some row => .value row.constant
    | none => if s.state.references.contains x.key then .value 0 else .notFound

/-- The counts. -/
def stats (s : Solver α) : Stats where
  constraints := s.state.constraints.size
  rows := s.state.tableau.rows.size
  editVariables := s.state.edits.size
  pivots := s.state.tableau.pivots
  insertions := s.insertions
  removals := s.removals
  failures := s.failures

/-- The tableau as text, a line for each row. -/
def dump (write : α → String) (s : Solver α) : String :=
  let t := s.state.tableau
  let rows := t.rows.entries.map fun e => "  " ++ e.1.text ++ " = " ++ e.2.text write ++ "\n"
  let queued := t.infeasible.reverse.map (·.text)
  "objective: " ++ t.objective.text write ++ "\nrows:\n" ++ String.join rows ++
    "infeasible: [" ++ String.intercalate ", " queued ++ "]\n" ++
    if s.poisoned then "poisoned\n" else ""

/-! ## Failures -/

/-- The solver after a failed operation that left the given tableau. -/
def recovered (s : Solver α) (t : Tableau α) : Solver α :=
  let s := { s with failures := s.failures + 1 }
  if s.config.rollbackOnFailure then { s with state := { s.state with tableau := t.rollback } }
  else { s with state := { s.state with tableau := t }, poisoned := true }

/-- Runs an operation on the tableau, and undoes it if it fails. -/
def guarded {β : Type} (operation : Attempt (Tableau α) β) : Attempt (Solver α) β := fun s =>
  let t := s.state.tableau
  -- Without a journal nothing is noted, and what has changed stays changed
  match operation (if s.config.rollbackOnFailure then t.begin else t) with
  | .ok b t => .ok b { s with state := { s.state with tableau := t.commit } }
  | .error cause t => .error cause (s.recovered t)

/-! ## Constraints -/

/-- Inserts a constraint. -/
def insert (c : Constraint α) (w : Strength α) : Attempt (Solver α) Handle := do
  let s ← get
  let h ← guarded (Tableau.addConstraint c w s.isBatching)
  modify fun s =>
    { s with state := s.state.register h ⟨c, w⟩, insertions := s.insertions + 1 }
  pure h

/-- Removes a constraint. The answer is whether it is gone now; it is not if the solver did not hold
it, or if the removal failed. -/
def remove (h : Handle) : Attempt (Solver α) Bool := fun s =>
  match s.state.constraints.get? h with
  | none => .ok false s
  | some r => match guarded (Tableau.removeConstraint h r.strength s.isBatching) s with
    | .ok _ s => .ok true { s with state := s.state.unregister h, removals := s.removals + 1 }
    | .error _ s => .ok false s

/-! ## Edit variables -/

/-- Makes a variable an edit variable. Its target is its present value, or zero if it has none. -/
def startEdit (x : Variable) (w : Strength α) : Attempt (Solver α) Unit := do
  let s ← get
  if s.isEdit x then throw (.duplicateEditVariable x.key)
  if w.isRequired then throw .requiredEditStrength
  let target := (s.read x).getD 0
  let h ← insert (x.heldAt target) w
  modify fun s =>
    { s with state := { s.state with edits := s.state.edits.insert x ⟨h, target⟩ } }

/-- Makes an edit variable an ordinary one again. -/
def stopEdit (x : Variable) : Attempt (Solver α) Unit := do
  let s ← get
  match s.state.edits.get? x with
  | none => throw (.unknownEditVariable x.key)
  | some e =>
    -- The books strike the edit variable together with the constraint that holds it
    let gone ← remove e.handle
    if !gone then throw .unsatisfiable
    modify fun s => { s with state := { s.state with edits := s.state.edits.erase x } }

/-- Moves the target of an edit variable. -/
def suggest (x : Variable) (target : α) : Attempt (Solver α) Unit := do
  let s ← get
  match s.state.edits.get? x with
  | none => throw (.unknownEditVariable x.key)
  | some e =>
    guarded (Tableau.suggest e.handle (target - e.target))
    modify fun s =>
      let edits := s.state.edits.alter x fun e => e.map ({ · with target := target })
      { s with state := { s.state with edits := edits } }

/-! ## Batches -/

/-- Puts solving off until the batch is closed. -/
def openBatch : Attempt (Solver α) Unit := do
  let s ← get
  if s.isBatching then throw .batchInProgress
  let snapshot := if s.config.rollbackOnFailure then some s.state else none
  set { s with batch := some ⟨snapshot⟩ }

/-- The solver after the solving at the end of a batch has failed. -/
def restored (s : Solver α) (b : Batch α) : Solver α :=
  let s := { s with failures := s.failures + 1 }
  match b.snapshot with
  | some state => { s with state := state }
  | none => { s with poisoned := true }

/-- Closes the batch and does the solving that was put off. -/
def closeBatch : Attempt (Solver α) Unit := fun s =>
  match s.batch with
  | none => .error .noBatch s
  | some b =>
    let s := { s with batch := none }
    match Tableau.solve s.state.tableau with
    | .ok _ t => .ok () { s with state := { s.state with tableau := t } }
    | .error cause t =>
      .error cause (restored { s with state := { s.state with tableau := t } } b)

/-- Runs something in a batch of its own. -/
def inBatch {β : Type} (body : Solver α → β × Solver α) : Attempt (Solver α) β := do
  openBatch
  let b ← modifyGet body
  closeBatch
  pure b

/-- Drops the constraints, the edit variables and an open batch. -/
def clear (s : Solver α) : Solver α :=
  { s with state := s.state.clear, batch := none, poisoned := false }

end Solver

end Cassowary
