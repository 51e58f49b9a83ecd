import Cassowary.Solver.Basic

/-!
# Runs of a solver

A run is a list of operations on a solver, each with its answer. Operations that fail are part of
it.

## Main definitions

* `Operation`, `Answer` — what is asked of a solver, and what it answers
* `Solver.perform` — one operation
* `Solver.run` — a list of them, one after the other
* `Solver.Reachable` — the solvers that runs from an empty one lead to
-/

namespace Cassowary

/-- What is asked of a solver. -/
inductive Operation (α : Type) where
  | insert (c : Constraint α) (w : Strength α)
  | remove (h : Handle)
  | startEdit (x : Variable) (w : Strength α)
  | stopEdit (x : Variable)
  | suggest (x : Variable) (target : α)
  | openBatch
  | closeBatch
  | clear

/-- What a solver answers if the operation does not fail. -/
inductive Answer where
  | inserted (h : Handle)
  | removed (gone : Bool)
  | done
  deriving DecidableEq, Repr

namespace Solver

variable {α : Type} [Scalar α]

/-- Performs an operation. -/
def perform : Operation α → Attempt (Solver α) Answer
  | .insert c w => .inserted <$> insert c w
  | .remove h => .removed <$> remove h
  | .startEdit x w => do startEdit x w; pure .done
  | .stopEdit x => do stopEdit x; pure .done
  | .suggest x target => do suggest x target; pure .done
  | .openBatch => do openBatch; pure .done
  | .closeBatch => do closeBatch; pure .done
  | .clear => do modify clear; pure .done

/-- The answer to an operation, and the solver after it. -/
def step (s : Solver α) (o : Operation α) : Except SolverError Answer × Solver α :=
  (perform o).outcome s

/-- The solver after a list of operations. -/
def run (s : Solver α) (os : List (Operation α)) : Solver α :=
  os.foldl (fun s o => (s.step o).2) s

/-- The solvers that runs from one without constraints lead to. -/
def Reachable (config : Config α) (s : Solver α) : Prop :=
  ∃ os, s = (ofConfig config).run os

end Solver

end Cassowary
