import Cassowary.Key

/-!
# Errors

The ways in which an operation on a solver fails, and the text that tells of each.

## Main definitions

* `SolverError` — the causes
* `SolverError.message` — their texts
* `Attempt` — actions on a state that may fail
-/

namespace Cassowary

/-- Why an operation on a solver fails. -/
inductive SolverError where
  /-- The required constraints contradict each other. -/
  | unsatisfiable
  /-- The objective can be made as small as one likes. -/
  | unbounded
  /-- An optimisation would take more pivots than the limit. -/
  | iterationLimit (limit : Nat)
  /-- The variable is not an edit variable. -/
  | unknownEditVariable (key : Key)
  /-- The variable is an edit variable already. -/
  | duplicateEditVariable (key : Key)
  /-- An edit variable has to be able to yield. -/
  | requiredEditStrength
  /-- A batch is open already. -/
  | batchInProgress
  /-- No batch is open. -/
  | noBatch
  /-- There is no key with so large an index. -/
  | indexSpaceExhausted (index : Nat)
  deriving DecidableEq, Repr

namespace SolverError

/-- The text that tells of an error. -/
def message : SolverError → String
  | unsatisfiable => "constraint is unsatisfiable"
  | unbounded => "objective is unbounded"
  | iterationLimit limit => "optimization exceeded " ++ toString limit ++ " pivots"
  | unknownEditVariable x => "unknown edit variable: " ++ x.text
  | duplicateEditVariable x => "duplicate edit variable: " ++ x.text
  | requiredEditStrength => "edit variables cannot use required strength"
  | batchInProgress => "a batch is already in progress"
  | noBatch => "no batch in progress"
  | indexSpaceExhausted index =>
    "variable index space exhausted (index " ++ toString index ++ ")"

end SolverError

/-- An action on a state that may fail. A failed action leaves a state as well: what it had changed
before it failed is for its caller to keep or to undo. -/
abbrev Attempt (σ β : Type) := EStateM SolverError σ β

namespace Attempt

/-- What comes of an action that starts in a state, and the state after it. -/
def outcome {σ β : Type} (action : Attempt σ β) (s : σ) : Except SolverError β × σ :=
  match action s with
  | .ok b s => (.ok b, s)
  | .error cause s => (.error cause, s)

end Attempt

namespace Key

/-- The key with an index, or the error that the index is too large. -/
def allocate (kind : Kind) (derived : Bool) (index : Nat) : Except SolverError Key :=
  match ofIndex? kind derived index with
  | some k => .ok k
  | none => .error (.indexSpaceExhausted index)

end Key

end Cassowary
