import Cassowary.Tableau.Basic

/-!
# The simplex methods

Both methods pivot until a rule finds nothing more to do. The primal rule starts from rows that are
feasible: it lets the variable enter that lowers the objective fastest, and the row leave that would
become infeasible first. The dual rule starts from an objective that is optimal: it lets an
infeasible row leave, and the variable enter that keeps the objective optimal.

A pivot is counted against the limit before it is made, so a method that needs exactly the limit
succeeds.

## Main definitions

* `Tableau.Choice` — what a rule says
* `Tableau.iterate` — pivots by a rule, within a limit
* `Tableau.optimize` — the primal simplex method
* `Tableau.dualOptimize` — the dual simplex method
* `Tableau.solve` — both of them, for an optimal and feasible tableau
-/

namespace Cassowary

namespace Tableau

variable {α : Type} [Scalar α]

/-- What a rule says about a tableau. -/
inductive Choice where
  /-- There is nothing to do. -/
  | finished
  /-- There is something to do, and no way to do it. -/
  | impossible (cause : SolverError)
  /-- A pivot is to be made. -/
  | pivot (entering leaving : Key)

/-- Pivots by a rule until it is finished. The rule may change the tableau while it looks for a
pivot. -/
def iterate (rule : Tableau α → Choice × Tableau α) (limit : Nat) :
    Nat → Attempt (Tableau α) Unit
  | budget, t => match rule t with
    | (.finished, t) => .ok () t
    | (.impossible cause, t) => .error cause t
    -- The budget is asked only when there is a pivot to be made
    | (.pivot entering leaving, t) => match budget with
      | 0 => .error (.iterationLimit limit) t
      | budget + 1 => iterate rule limit budget (t.pivot entering leaving)

/-- The first of the smallest ratios, among those below infinity. -/
def leastRatio (candidates : List (Term Key α)) : Option Key :=
  let better (best : Option (Term Key α)) (c : Term Key α) : Bool := match best with
    | some b => c.coefficient < b.coefficient
    | none => Scalar.belowTop c.coefficient
  (candidates.foldl (fun best c => if better best c then some c else best) none).map (·.var)

/-! ## The primal method -/

/-- Which objective is made as small as possible. -/
inductive Target where
  | objective
  | artificial
  deriving DecidableEq

/-- The row of an objective. -/
def targetRow (t : Tableau α) : Target → Option (Row α)
  | .objective => some t.objective
  | .artificial => t.artificial

/-- The first of the most negative coefficients that a key which may enter has in an objective. -/
def entering? (t : Tableau α) (objective : Row α) : Option Key :=
  let improving := objective.terms.filter fun c =>
    -- A coefficient that does not compare is let in
    c.var.pivotable && !decide (-t.epsilon ≤ c.coefficient)
  let better (best : Option (Term Key α)) (c : Term Key α) : Bool := match best with
    | some b => c.coefficient < b.coefficient
    | none => true
  (improving.foldl (fun best c => if better best c then some c else best) none).map (·.var)

/-- How far a key can grow until a row becomes infeasible, for the rows where there is such a
bound. -/
def bounds (t : Tableau α) (k : Key) : List (Term Key α) :=
  t.rows.entries.filterMap fun e =>
    let c := e.2.coefficientFor k
    if !e.1.unrestricted && decide (c < 0) then some ⟨e.1, -e.2.constant / c⟩ else none

/-- The row that becomes infeasible first while a key grows. -/
def leaving? (t : Tableau α) (k : Key) : Option Key := leastRatio (t.bounds k)

/-- The primal rule. -/
def primalRule (target : Target) (t : Tableau α) : Choice × Tableau α :=
  match (t.targetRow target).bind t.entering? with
  | none => (.finished, t)
  | some entering => match t.leaving? entering with
    | none => (.impossible .unbounded, t)
    | some leaving => (.pivot entering leaving, t)

/-- Makes an objective as small as possible. -/
def optimize (target : Target) : Attempt (Tableau α) Unit := fun t =>
  iterate (primalRule target) t.maxIterations t.maxIterations t

/-! ## The dual method -/

/-- The first infeasible row of a queue, and the rest of the queue. Rows that have become feasible
since they were queued, and keys that are basic no more, are passed over. -/
def nextViolated (t : Tableau α) : List Key → Option (Key × Row α × List Key)
  | [] => none
  | k :: rest => match t.rows.get? k with
    | some row => if row.constant < -t.epsilon then some (k, row, rest) else nextViolated t rest
    | none => nextViolated t rest

/-- The key that may enter in place of an infeasible row: the ratio of its coefficients in the
objective and in the row is the smallest, and of ratios that are as good as equal the smallest key
wins, so that the method does not run in a circle. -/
def dualEntering? (t : Tableau α) (row : Row α) : Option Key :=
  let candidates := row.terms.filterMap fun c =>
    if c.var.pivotable && !decide (c.coefficient ≤ 0) then
      some (⟨c.var, t.objective.coefficientFor c.var / c.coefficient⟩ : Term Key α)
    else none
  let better (best : Option (Term Key α)) (c : Term Key α) : Bool := match best with
    | some b =>
      decide (c.coefficient < b.coefficient - t.epsilon) ||
        (decide (c.coefficient ≤ b.coefficient + t.epsilon) && decide (c.var < b.var))
    | none => true
  (candidates.foldl (fun best c => if better best c then some c else best) none).map (·.var)

/-- The dual rule. -/
def dualRule (t : Tableau α) : Choice × Tableau α :=
  match t.nextViolated t.infeasible with
  | none => (.finished, { t with infeasible := [] })
  | some (leaving, row, rest) =>
    let t := { t with infeasible := rest }
    match t.dualEntering? row with
    | none => (.impossible .unsatisfiable, t)
    | some entering => (.pivot entering leaving, t)

/-- Repairs the queued rows and keeps the objective optimal. -/
def dualOptimize : Attempt (Tableau α) Unit := fun t =>
  iterate dualRule t.maxIterations t.maxIterations t

/-! ## Both -/

/-- Makes the tableau optimal and feasible. -/
def solve : Attempt (Tableau α) Unit := do
  optimize .objective
  dualOptimize
  modify fun t => { t with deferred := false }

/-- Solves now, or puts it off. It is not put off while rows are queued, so that whatever made them
infeasible is told of its failure itself. -/
def finish (defer : Bool) : Attempt (Tableau α) Unit := do
  let t ← get
  if defer && t.infeasible.isEmpty then set { t with deferred := true } else solve

end Tableau

end Cassowary
