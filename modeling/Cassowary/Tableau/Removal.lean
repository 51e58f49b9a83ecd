import Cassowary.Tableau.Insertion

/-!
# Removal of constraints

A constraint that goes takes its price along, and the equation that its marker stands in. If the
marker is not basic, it is made basic first, in a way that leaves the other rows feasible.

## Main definitions

* `Tableau.dropPrice` — the objective without an error variable
* `Tableau.markerLeaving?` — the row in whose place a marker becomes basic
* `Tableau.removeConstraint` — the whole removal
-/

namespace Cassowary

namespace Tableau

variable {α : Type} [Scalar α]

/-- Takes the price of an error variable out of the objective. -/
def dropPrice (t : Tableau α) (error : Key) (s : Strength α) : Tableau α :=
  let weight := -s.value
  match t.rows.get? error with
  | some row => t.modifyObjective (·.insertRow row weight)
  | none => t.modifyObjective (·.insert ⟨error, weight⟩)

/-- The rows in which a key has a coefficient, with the coefficient. -/
def column (t : Tableau α) (k : Key) : List (Key × Row α × α) :=
  (t.rows.entries.map fun e => (e.1, e.2, e.2.coefficientFor k)).filter fun e => !(e.2.2 == 0)

/-- The row in whose place a marker becomes basic. Of rows that may become infeasible, those that
fall while the marker grows come before those that rise, and the smallest ratio comes first; rows of
layout variables come last. -/
def markerLeaving? (t : Tableau α) (marker : Key) : Option Key :=
  let column := t.column marker
  let restricted := column.filter fun e => !e.1.unrestricted
  let falling := restricted.filter fun e => decide (e.2.2 < 0)
  let rising := restricted.filter fun e => !decide (e.2.2 < 0)
  -- Rows of layout variables cannot become infeasible, so any of them will do
  let free := column.filter (·.1.unrestricted)
  (leastRatio (falling.map fun e => ⟨e.1, -e.2.1.constant / e.2.2⟩)).or <|
    (leastRatio (rising.map fun e => ⟨e.1, e.2.1.constant / e.2.2⟩)).or <|
      free.getLast?.map (·.1)

/-- Takes away the equation that a marker stands in. -/
def dropMarker (t : Tableau α) (marker : Key) : Tableau α :=
  if t.isBasic marker then t.eraseRow marker
  else match t.markerLeaving? marker with
    | some leaving => (t.pivot marker leaving).eraseRow marker
    | none => t

/-- Removes a constraint. With `defer`, the optimisation may be put off. -/
def removeConstraint (h : Handle) (s : Strength α) (defer : Bool) : Attempt (Tableau α) Unit := do
  let t ← get
  let errors := h.markers.filter (·.kind = .error)
  set ((errors.foldl (·.dropPrice · s) t).dropMarker h.marker)
  finish defer

end Tableau

end Cassowary
