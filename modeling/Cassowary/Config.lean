import Cassowary.Json
import Cassowary.Scalar

/-!
# Settings

The settings of a solver, and the JSON documents that give them. A document is an object with any of
the fields, each at most once, or an array of the first few fields in order. Fields that are left
out keep their defaults, and unknown fields are passed over.

## Main definitions

* `Config` — a tolerance, the way failures are met, and a limit
* `Config.ofJson?`, `Config.read?` — the settings that a document gives
-/

namespace Cassowary

/-- The settings of a solver. -/
structure Config (α : Type) where
  /-- How far optimality, feasibility and redundancy may be missed. -/
  epsilon : α
  /-- Whether a failed operation is undone. A solver that does not undo one has no values from then
  on until it is cleared. -/
  rollbackOnFailure : Bool
  /-- The most pivots that one optimisation may take. -/
  maxIterations : Nat
  deriving DecidableEq, Repr

namespace Config

/-- The settings of a solver for which no others are asked for. -/
def default {α : Type} [Scalar α] : Config α := ⟨1e-8, true, 10000⟩

instance {α : Type} [Scalar α] : Inhabited (Config α) := ⟨default⟩

/-- One past the largest limit on pivots that a document may give. -/
def limitBound : Nat := 1 <<< 64

/-- A number with a finite value. -/
def epsilon? : Json → Option Float
  | .number d _ => if d.toFloat.isInf then none else some d.toFloat
  | _ => none

/-- A truth value. -/
def flag? : Json → Option Bool
  | .bool b => some b
  | _ => none

/-- A natural number, written without a sign, a point or a power of ten. -/
def limit? : Json → Option Nat
  | .number ⟨false, n, _⟩ true => if n < limitBound then some n else none
  | _ => none

/-- A setting as the document gives it, if it gives one. -/
def given? {β : Type} (read? : Json → Option β) (otherwise : β) : Option Json → Option β
  | some value => read? value
  | none => some otherwise

/-- The settings with the given values in the place of the defaults. -/
def ofFields? (epsilon rollback limit : Option Json) : Option (Config Float) := do
  let epsilon ← given? epsilon? default.epsilon epsilon
  let rollback ← given? flag? (default : Config Float).rollbackOnFailure rollback
  let limit ← given? limit? (default : Config Float).maxIterations limit
  some ⟨epsilon, rollback, limit⟩

/-- The value of a field that is not given twice. -/
def field? (members : List (Option String × Json)) (name : String) : Option (Option Json) :=
  match members.filter (·.1 = some name) with
  | [] => some none
  | [(_, value)] => some (some value)
  | _ => none

/-- The settings that a document gives. -/
def ofJson? : Json → Option (Config Float)
  | .object members => do
    if members.any (·.1.isNone) then none
    let epsilon ← field? members "epsilon"
    let rollback ← field? members "rollback_on_failure"
    let limit ← field? members "max_iterations"
    ofFields? epsilon rollback limit
  | .array elements =>
    if 3 < elements.length then none else ofFields? elements[0]? elements[1]? elements[2]?
  | _ => none

/-- The settings that the text of a document gives. -/
def read? (text : String) : Option (Config Float) := (Json.read? text).bind ofJson?

end Config

end Cassowary
