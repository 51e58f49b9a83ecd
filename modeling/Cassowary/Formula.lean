import Cassowary.Term

/-!
# Formulas

A layout writes its constraints with ordinary arithmetic. A formula is such an expression as it is
written; every formula has the value of a linear form, in which terms are listed but not yet merged.

## Main definitions

* `LinearForm` — terms over layout variables and a constant
* `Formula` — numbers, variables and terms under sums, differences, multiples and negation
* `Formula.linear` — the linear form of a formula
-/

namespace Cassowary

/-- A sum of terms and a constant. A variable may have several terms. -/
structure LinearForm (α : Type) where
  terms : List (Term Variable α)
  constant : α
  deriving DecidableEq

namespace LinearForm

variable {α : Type} [Scalar α]

/-- A number. -/
def ofNumber (c : α) : LinearForm α := ⟨[], c⟩

/-- A term alone. -/
def ofTerm (t : Term Variable α) : LinearForm α := ⟨[t], 0⟩

/-- Each term and the constant times a factor. -/
def scaled (e : LinearForm α) (factor : α) : LinearForm α :=
  ⟨e.terms.map (·.scaled factor), e.constant * factor⟩

instance : Add (LinearForm α) := ⟨fun a b => ⟨a.terms ++ b.terms, a.constant + b.constant⟩⟩

instance : Neg (LinearForm α) := ⟨fun a => a.scaled (-1)⟩

instance : Sub (LinearForm α) := ⟨fun a b => a + -b⟩

end LinearForm

/-- A linear expression as it is written. -/
inductive Formula (α : Type) where
  | number (c : α)
  | var (x : Variable)
  | term (t : Term Variable α)
  | form (e : LinearForm α)
  | add (a b : Formula α)
  | sub (a b : Formula α)
  | neg (a : Formula α)
  | scale (a : Formula α) (factor : α)
  | divide (a : Formula α) (divisor : α)

namespace Formula

variable {α : Type} [Scalar α]

/-- The linear form of a formula. A division is a multiplication by the reciprocal. -/
def linear : Formula α → LinearForm α
  | number c => .ofNumber c
  | var x => .ofTerm (.unit x)
  | term t => .ofTerm t
  | form e => e
  | add a b => a.linear + b.linear
  | sub a b => a.linear - b.linear
  | neg a => -a.linear
  | scale a factor => a.linear.scaled factor
  | divide a divisor => a.linear.scaled (1 / divisor)

end Formula

end Cassowary
