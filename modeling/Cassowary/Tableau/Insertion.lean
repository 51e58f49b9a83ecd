import Cassowary.Strength
import Cassowary.Tableau.Simplex

/-!
# Insertion of constraints

A constraint becomes an equation by symbols of its own. An inequality gets a slack that takes up the
distance to its bound. A constraint that may be violated gets error variables, whose price in the
objective is its strength: one for an inequality, and one for each direction of an equality. A
required equality gets a dummy, which is zero throughout and only marks the constraint.

The equation is then solved for one of its variables, and its row enters the tableau. Where there is
none to solve it for, the equation is installed behind an artificial variable, and the tableau is
optimised until that variable is zero.

## Main definitions

* `Handle` — the symbols that identify a constraint
* `Tableau.createRow` — the equation of a constraint
* `Row.subject?` — the variable that an equation is solved for
* `Tableau.addWithArtificial` — the way for equations without such a variable
* `Tableau.addConstraint` — the whole insertion
-/

namespace Cassowary

/-- A constraint, identified by the symbols made for it. The marker is the slack of an inequality,
the dummy of a required equality, or the error of an equality that falls short of its target. The
other one is the error of an inequality, or the error of an equality that goes beyond its target. -/
structure Handle where
  marker : Key
  other : Option Key
  deriving DecidableEq, Repr

namespace Handle

/-- The symbols made for the constraint. -/
def markers (h : Handle) : List Key := h.marker :: h.other.toList

end Handle

/-- A variable that an equation is solved for, and what the solved row is like. -/
inductive Subject where
  /-- A layout variable: any constant will do. -/
  | free (key : Key)
  /-- A symbol of the constraint whose row has a constant it may have. -/
  | feasible (key : Key)
  /-- A symbol of the constraint whose row has a constant it may not have, unless that is zero. -/
  | infeasible (key : Key)
  deriving DecidableEq

namespace Subject

/-- The variable. -/
def key : Subject → Key
  | free k | feasible k | infeasible k => k

end Subject

namespace Row

variable {α : Type} [Scalar α]

/-- The variable that the equation of a constraint is solved for: any layout variable rather than a
symbol of the constraint, and a symbol with a negative coefficient rather than another one. -/
def subject? (r : Row α) (h : Handle) : Option Subject :=
  let candidates := h.markers.filter (·.pivotable)
  match r.keys.find? (·.unrestricted) with
  | some k => some (.free k)
  | none => match candidates.find? fun k => r.coefficientFor k < 0 with
    | some k => some (.feasible k)
    | none => (candidates.find? fun k => decide (0 < r.coefficientFor k)).map .infeasible

end Row

namespace Tableau

variable {α : Type} [Scalar α]

/-- A symbol that has not been used. -/
def newSymbol (kind : Kind) : Attempt (Tableau α) Key := fun t =>
  match Key.allocate kind false t.nextId with
  | .ok k => .ok k { t with nextId := t.nextId + 1 }
  | .error cause => .error cause t

/-- Makes an error variable cost something. -/
def setPrice (error : Key) (s : Strength α) : Attempt (Tableau α) Unit :=
  modify (·.modifyObjective (·.insert ⟨error, s.value⟩))

/-- A row with new symbols for a constraint of the given kind, and the handle that they make. -/
def addMarkers (row : Row α) (relation : Relation) (s : Strength α) :
    Attempt (Tableau α) (Row α × Handle) := do
  match relation, s.isRequired with
  | .lessOrEqual, true =>
    let slack ← newSymbol .slack
    pure (row.insert ⟨slack, 1⟩, ⟨slack, none⟩)
  | .lessOrEqual, false =>
    let slack ← newSymbol .slack
    let error ← newSymbol .error
    setPrice error s
    pure ((row.insert ⟨slack, 1⟩).insert ⟨error, -1⟩, ⟨slack, some error⟩)
  | .equal, true =>
    let dummy ← newSymbol .dummy
    pure (row.insert ⟨dummy, 1⟩, ⟨dummy, none⟩)
  | .equal, false =>
    let plus ← newSymbol .error
    let minus ← newSymbol .error
    setPrice plus s
    setPrice minus s
    pure ((row.insert ⟨plus, 1⟩).insert ⟨minus, -1⟩, ⟨plus, some minus⟩)

/-- The equation of a constraint, in terms of variables that are not basic and with a constant that
is not negative. -/
def createRow (c : Constraint α) (s : Strength α) : Attempt (Tableau α) (Row α × Handle) := do
  let (row, handle) ← addMarkers (.ofConstraint c) c.relation s
  let t ← get
  pure ((t.substituteBasics row).normalize, handle)

/-- Whether an equation can be installed only in a tableau that is optimal and feasible. -/
def needsRepair (t : Tableau α) (row : Row α) : Option Subject → Bool
  | none => !row.allDummies
  | some (.infeasible _) => t.epsilon < row.constant
  | some _ => false

/-! ## The artificial variable -/

/-- Makes the artificial objective as small as possible and drops it. The answer is the value that
it has come to. -/
def minimizeArtificial : Attempt (Tableau α) α := fun t =>
  match optimize .artificial t with
  | .ok _ t => .ok ((t.artificial.map (·.constant)).getD 0) { t with artificial := none }
  | .error cause t => .error cause { t with artificial := none }

/-- Makes an artificial variable that has become zero not basic. Its row has a key that can be basic
instead, unless it is empty and goes away altogether. -/
def retireArtificial (artificial : Key) : Attempt (Tableau α) Unit := do
  let t ← get
  match t.rows.get? artificial with
  | none => pure ()
  | some row =>
    -- The row is gone even if no key is found to take its place
    let t := t.eraseRow artificial
    set t
    if row.isEmpty then pure ()
    else match row.anyPivotable with
      | none => throw .unsatisfiable
      | some entering =>
        let row := row.solveForPair artificial entering
        set ((t.eliminate entering row).putRow entering row)

/-- Installs an equation behind an artificial variable and drives the variable to zero. -/
def addWithArtificial (row : Row α) : Attempt (Tableau α) Unit := do
  let artificial ← newSymbol .artificial
  modify fun t => { t.putRow artificial row with artificial := some row }
  let residual ← minimizeArtificial
  let t ← get
  if t.epsilon < Scalar.magnitude residual then throw .unsatisfiable
  retireArtificial artificial
  modify (·.dropColumn artificial)

/-! ## The whole -/

/-- Catches up on an optimisation that was put off if the equation needs it, and writes the equation
in the terms of the tableau there is then. -/
def prepareFor (row : Row α) (handle : Handle) : Attempt (Tableau α) (Row α) := do
  let t ← get
  -- The ways of installing an equation that keep feasibility by themselves need no solving first
  if t.deferred && (!t.infeasible.isEmpty || t.needsRepair row (row.subject? handle)) then
    solve
    let t ← get
    pure (t.substituteBasics row).normalize
  else pure row

/-- Installs the equation of a constraint. Where nothing but dummies is left of it, it says that its
constant is zero: then it is redundant, and kept so that it can be removed, or it is
contradictory. -/
def insertRow (row : Row α) (handle : Handle) : Attempt (Tableau α) Unit := do
  let row ← prepareFor row handle
  let t ← get
  match row.subject? handle with
  | some subject => set (t.install row subject.key)
  | none =>
    if row.allDummies then
      -- Dummies are zero, so what is left says `0 = constant`
      if t.epsilon < Scalar.magnitude row.constant then throw .unsatisfiable
      else set (t.install row handle.marker)
    else addWithArtificial row

/-- Inserts a constraint. With `defer`, the optimisation may be put off. -/
def addConstraint (c : Constraint α) (s : Strength α) (defer : Bool) :
    Attempt (Tableau α) Handle := do
  let (row, handle) ← createRow c s
  insertRow row handle
  finish defer
  pure handle

end Tableau

end Cassowary
