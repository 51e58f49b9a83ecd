import Cassowary.Solver.Basic

/-!
# What constraints mean

A solver is about assignments: a value for each variable. This module says, without a tableau, when
an assignment meets a constraint, what it costs to violate one, and which assignments solve what a
solver holds. It also says which assignments a tableau stands for.

## Main definitions

* `Assignment` — a value for each key
* `Formula.value`, `Comparison.Holds` — a written relation at an assignment
* `Constraint.value`, `Constraint.Holds`, `Constraint.violation` — a reduced constraint at one
* `State.Feasible`, `State.cost`, `State.Optimal` — all that is held at one
* `State.Equations`, `Tableau.Solves` — the equations of the constraints, and the rows
* `Solver.assignment` — what a solver has found
-/

namespace Cassowary

variable {α : Type} [Scalar α]

/-- A value for each key. -/
abbrev Assignment (α : Type) := Key → α

namespace Assignment

/-- The value of what a formula mentions: the number one keeps its value. -/
def valueOf (v : Assignment α) (x : Variable) : α :=
  if x.key.kind = .constant then 1 else v x.key

end Assignment

/-! ## Written relations -/

namespace LinearForm

/-- The value of a linear form. -/
def value (e : LinearForm α) (v : Assignment α) : α :=
  (e.terms.map fun t => t.coefficient * v.valueOf t.var).sum + e.constant

end LinearForm

namespace Formula

/-- The value of a formula, by its arithmetic. -/
def value (v : Assignment α) : Formula α → α
  | number c => c
  | var x => v.valueOf x
  | term t => t.coefficient * v.valueOf t.var
  | form e => e.value v
  | add a b => a.value v + b.value v
  | sub a b => a.value v - b.value v
  | neg a => -a.value v
  | scale a factor => a.value v * factor
  | divide a divisor => a.value v / divisor

end Formula

namespace Comparison

/-- Whether two numbers compare as asked for. -/
def Holds : Comparison → α → α → Prop
  | equal, a, b => a = b
  | less, a, b => a < b
  | greater, a, b => b < a
  | lessOrEqual, a, b => a ≤ b
  | greaterOrEqual, a, b => b ≤ a

end Comparison

/-! ## Constraints -/

namespace Constraint

/-- The value that a constraint compares with zero. -/
def value (c : Constraint α) (v : Assignment α) : α :=
  (c.terms.map fun t => t.coefficient * v t.var).sum + c.constant

/-- Whether an assignment meets a constraint. -/
def Holds (c : Constraint α) (v : Assignment α) : Prop :=
  match c.relation with
  | .equal => c.value v = 0
  | .lessOrEqual => c.value v ≤ 0

/-- By how much an assignment misses a constraint. -/
def violation (c : Constraint α) (v : Assignment α) : α :=
  match c.relation with
  | .equal => Scalar.magnitude (c.value v)
  | .lessOrEqual => Scalar.atLeast 0 (c.value v)

end Constraint

/-! ## What is held -/

namespace State

/-- What a constraint says now: the constraint behind an edit variable has moved with its target. -/
def current (s : State α) (h : Handle) (r : Record α) : Constraint α :=
  match s.edits.entries.find? (·.2.handle = h) with
  | some (x, e) => x.heldAt e.target
  | none => r.constraint

/-- The constraints that are held, as they are now, and their strengths. -/
def held (s : State α) : List (Constraint α × Strength α) :=
  s.constraints.entries.map fun e => (s.current e.1 e.2, e.2.strength)

/-- Whether an assignment meets every required constraint. -/
def Feasible (s : State α) (v : Assignment α) : Prop :=
  ∀ e ∈ s.held, e.2.isRequired → e.1.Holds v

/-- What the violations of the other constraints cost. -/
def cost (s : State α) (v : Assignment α) : α :=
  ((s.held.filter fun e => !e.2.isRequired).map fun e => e.2.value * e.1.violation v).sum

/-- Whether an assignment is feasible, and none that is costs less. -/
def Optimal (s : State α) (v : Assignment α) : Prop :=
  s.Feasible v ∧ ∀ w, s.Feasible w → s.cost v ≤ s.cost w

/-- Whether values of the variables and of the markers meet the equation of every constraint: the
marker makes up what is missing to zero, less the other symbol. -/
def Equations (s : State α) (v : Assignment α) : Prop :=
  ∀ e ∈ s.constraints.entries,
    (s.current e.1 e.2).value v + v e.1.marker - (e.1.other.elim 0 v) = 0

end State

namespace Tableau

/-- Whether an assignment meets every row. -/
def Solves (t : Tableau α) (v : Assignment α) : Prop :=
  ∀ e ∈ t.rows.entries, v e.1 = e.2.evaluate v

end Tableau

namespace Solver

/-- The values that a solver has found, zero for variables that it does not know. -/
def assignment (s : Solver α) : Assignment α := fun k =>
  match Variable.ofKey? k with
  | some x => (s.read x).getD 0
  | none => 0

end Solver

end Cassowary
