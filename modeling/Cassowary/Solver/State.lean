import Cassowary.Config
import Cassowary.Tableau.Removal
import Cassowary.Tableau.Suggestion

/-!
# The state of a solver

Beside the tableau a solver keeps books: which constraints are held, which variables they mention
and how often, and which variables are edited.

## Main definitions

* `Record`, `Edit` — what is kept of a constraint and of an edit variable
* `Variable.heldAt` — the constraint behind an edit variable
* `State` — the tableau and the books
* `State.register`, `State.unregister` — a constraint that comes, and one that goes
-/

namespace Cassowary

/-- A constraint that is held, and how strongly. -/
structure Record (α : Type) where
  constraint : Constraint α
  strength : Strength α

/-- An edit variable: the constraint that holds it, and its target. -/
structure Edit (α : Type) where
  handle : Handle
  target : α

/-- The constraint that holds a variable at a target. -/
def Variable.heldAt {α : Type} [Scalar α] (x : Variable) (target : α) : Constraint α :=
  .ofFormulas (.var x) .equal (.number target)

/-- The tableau and what it was made from. -/
structure State (α : Type) where
  tableau : Tableau α
  /-- The constraints that are held. -/
  constraints : Table Handle (Record α)
  /-- The edit variables. -/
  edits : Table Variable (Edit α)
  /-- How many constraints mention each variable, for those that any mentions. -/
  references : Table Key Nat

namespace State

variable {α : Type} [Scalar α]

/-- No constraints. -/
def empty (config : Config α) : State α :=
  ⟨.empty config.epsilon config.maxIterations, ∅, ∅, ∅⟩

/-- The state without its constraints. -/
def clear (s : State α) : State α := ⟨s.tableau.clear, ∅, ∅, ∅⟩

/-- Counts one more mention of a variable. -/
def refer (references : Table Key Nat) (k : Key) : Table Key Nat :=
  references.alter k fun n => some (n.getD 0 + 1)

/-- Counts one mention less of a variable, and forgets it with the last one. -/
def unrefer (references : Table Key Nat) (k : Key) : Table Key Nat :=
  references.alter k fun n => n.bind fun n => if n ≤ 1 then none else some (n - 1)

/-- Enters a constraint in the books. -/
def register (s : State α) (h : Handle) (r : Record α) : State α :=
  { s with
    constraints := s.constraints.insert h r
    references := r.constraint.keys.foldl refer s.references }

/-- Strikes a constraint from the books, and the edit variable that it holds. -/
def unregister (s : State α) (h : Handle) : State α :=
  match s.constraints.get? h with
  | none => s
  | some r =>
    { s with
      constraints := s.constraints.erase h
      references := r.constraint.keys.foldl unrefer s.references
      edits := s.edits.filter fun _ e => e.handle ≠ h }

end State

end Cassowary
