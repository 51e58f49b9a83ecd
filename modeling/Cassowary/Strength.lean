import Cassowary.Scalar

/-!
# Strengths

A constraint with the strength `required` has to hold. Any other may be violated, and its strength
is what a unit of violation costs. The named strengths are a factor of a thousand apart, but for the
two weakest ones, which are a factor of a hundred apart.

## Main definitions

* `Strength` — a weight
* `Strength.of`, `Strength.compose` — the weights that can be asked for
* `Strength.isRequired` — whether a constraint of the strength has to hold
-/

namespace Cassowary

/-- The cost of a unit of violation. -/
structure Strength (α : Type) where
  value : α
  deriving DecidableEq, Repr

namespace Strength

variable {α : Type} [Scalar α]

/-- Has to hold, and so never has a part in the objective. -/
def required : Strength α := ⟨1e8⟩

/-- The strongest preset that may be violated. -/
def strong : Strength α := ⟨1e5⟩

/-- The preset between strong and weak. -/
def medium : Strength α := ⟨1e2⟩

/-- The weakest preset. -/
def weak : Strength α := ⟨1⟩

/-- A strength between zero and `required`. What is not a number has no strength. -/
def of (x : α) : Strength α :=
  if Scalar.isNaN x then ⟨0⟩ else ⟨Scalar.clamp 0 (required : Strength α).value x⟩

/-- A strength made of parts that count as strong, medium and weak. Each part is weighted and kept
between zero and a thousand. -/
def compose (strongPart mediumPart weakPart weight : α) : Strength α :=
  let part (x : α) : α := Scalar.clamp 0 1e3 (x * weight)
  of (part strongPart * 1e5 + part mediumPart * 1e2 + part weakPart)

/-- Whether a constraint of this strength has to hold. -/
def isRequired (s : Strength α) : Bool := (required : Strength α).value ≤ s.value

/-- How one strength compares with another. A strength may be no number at all, and then it does not
compare. -/
def compare? (s t : Strength α) : Option Ordering :=
  if s.value < t.value then some .lt
  else if t.value < s.value then some .gt
  else if s.value == t.value then some .eq
  else none

/-- Whether two strengths compare equal. -/
def agrees (s t : Strength α) : Bool := s.value == t.value

/-- The name of a preset, or the weight. -/
def text (write : α → String) (s : Strength α) : String :=
  if s.agrees required then "required"
  else if s.agrees strong then "strong"
  else if s.agrees medium then "medium"
  else if s.agrees weak then "weak"
  else write s.value

end Strength

end Cassowary
