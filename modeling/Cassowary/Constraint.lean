import Cassowary.Formula
import Cassowary.Table

/-!
# Constraints

Two linear forms and a comparison between them are brought into one shape: terms and a constant that
add up to zero, or to zero at most. Everything is moved to the left, each key gets one term, and
variables that users see come before auxiliary ones.

A strict comparison becomes one that is not strict, with a margin that grows with the coefficients,
so that whatever meets it meets the strict one as well.

## Main definitions

* `Comparison` — how two formulas are compared
* `Constraint` — terms and a constant that are zero, or zero at most
* `Constraint.reduce` — the constraint that a comparison of two linear forms comes to
-/

namespace Cassowary

/-- How the left side is compared with the right side. -/
inductive Comparison where
  | equal
  | less
  | greater
  | lessOrEqual
  | greaterOrEqual
  deriving DecidableEq, Repr

/-- How a constraint compares its terms and constant with zero. -/
inductive Relation where
  /-- `terms + constant ≤ 0` -/
  | lessOrEqual
  /-- `terms + constant = 0` -/
  | equal
  deriving DecidableEq, Repr

/-- Terms and a constant whose sum is zero, or zero at most. -/
structure Constraint (α : Type) where
  terms : List (Term Key α)
  constant : α
  relation : Relation
  deriving DecidableEq

namespace Constraint

variable {α : Type} [Scalar α]

/-- Merged coefficients no larger than this leave no term. -/
def zeroTerm : α := 1e-12

/-- The least margin of a strict comparison. -/
def marginFloor : α := 1e-7

/-- The margin of a strict comparison for each unit of the coefficients. -/
def marginScale : α := 1e-8

/-- The sum of the coefficients without their signs. -/
def weight (terms : List (Term Key α)) : α :=
  terms.foldl (fun sum t => sum + Scalar.magnitude t.coefficient) 0

/-- By how much a strict comparison is tightened. -/
def margin (terms : List (Term Key α)) : α :=
  Scalar.atLeast marginFloor (marginScale * Scalar.atLeast 1 (weight terms))

/-- The terms of the left side and the negated ones of the right. -/
def gathered (lhs rhs : LinearForm α) : List (Term Variable α) := lhs.terms ++ rhs.terms.map (-·)

/-- The difference of the constants, and whatever terms the number one has. -/
def gatheredConstant (lhs rhs : LinearForm α) : α :=
  ((gathered lhs rhs).filter (·.var.key.kind = .constant)).foldl
    (fun sum t => sum + t.coefficient) (lhs.constant - rhs.constant)

/-- One coefficient for each variable, in the order in which the variables first occur. -/
def merged (terms : List (Term Variable α)) : Table Key α :=
  (terms.filter (·.var.key.unrestricted)).foldl
    (fun sums t => sums.alter t.var.key fun sum => some (sum.getD 0 + t.coefficient)) ∅

/-- The terms of a constraint: those of the variables that users see, then those of elements, then
the shared ones, as far as they have not cancelled. -/
def ordered (sums : Table Key α) : List (Term Key α) :=
  [Kind.external, .localAux, .globalAux].flatMap fun kind =>
    (sums.entries.filter fun e => e.1.kind = kind ∧ zeroTerm < Scalar.magnitude e.2).map
      fun e => ⟨e.1, e.2⟩

/-- The constraint that a comparison of two linear forms comes to. -/
def reduce (lhs : LinearForm α) (comparison : Comparison) (rhs : LinearForm α) : Constraint α :=
  let terms := ordered (merged (gathered lhs rhs))
  let constant := gatheredConstant lhs rhs
  match comparison with
  | .equal => ⟨terms, constant, .equal⟩
  | .lessOrEqual => ⟨terms, constant, .lessOrEqual⟩
  | .less => ⟨terms, constant + margin terms, .lessOrEqual⟩
  | .greaterOrEqual => ⟨terms.map (-·), -constant, .lessOrEqual⟩
  | .greater => ⟨terms.map (-·), -(constant - margin terms), .lessOrEqual⟩

/-- The constraint that a comparison of two formulas comes to. -/
def ofFormulas (lhs : Formula α) (comparison : Comparison) (rhs : Formula α) : Constraint α :=
  reduce lhs.linear comparison rhs.linear

/-- The keys that the constraint mentions. -/
def keys (c : Constraint α) : List Key := c.terms.map (·.var)

/-- The text of a constraint. -/
def text (write : α → String) (c : Constraint α) : String :=
  String.join (c.terms.map fun t => t.text write ++ " + ") ++ write c.constant ++
    match c.relation with
    | .lessOrEqual => " <= 0"
    | .equal => " == 0"

end Constraint

end Cassowary
