import Cassowary.Key
import Cassowary.Scalar

/-!
# Terms

A variable times a coefficient. Formulas are made of terms over layout variables; constraints and
rows are made of terms over keys.

## Main definitions

* `Term` — a coefficient for something that can have one
* `Variable` — a key that a formula may mention
-/

namespace Cassowary

/-- What is multiplied, and by how much. -/
structure Term (ι α : Type) where
  var : ι
  coefficient : α
  deriving DecidableEq, Repr

namespace Term

variable {ι α : Type}

/-- A term for the variable of another one, with a coefficient of its own. -/
def withCoefficient (t : Term ι α) (c : α) : Term ι α := { t with coefficient := c }

variable [Scalar α]

/-- Whether two terms have the same variable and coefficients that compare equal. -/
def agrees [DecidableEq ι] (s t : Term ι α) : Bool :=
  s.var = t.var && s.coefficient == t.coefficient

/-- The variable itself. -/
def unit (x : ι) : Term ι α := ⟨x, 1⟩

/-- The term times a factor. -/
def scaled (t : Term ι α) (factor : α) : Term ι α := t.withCoefficient (t.coefficient * factor)

instance : Neg (Term ι α) := ⟨fun t => t.scaled (-1)⟩

/-- The text of a term. -/
def text (write : α → String) (t : Term Key α) : String := write t.coefficient ++ "*" ++ t.var.text

end Term

/-- A key that a formula may mention: a layout variable, or the number one. -/
structure Variable where
  key : Key
  mentionable : key.unrestricted ∨ key.kind = .constant
  deriving DecidableEq

namespace Variable

/-- The variable with a key that a formula may mention. -/
def ofKey? (k : Key) : Option Variable :=
  if h : k.unrestricted ∨ k.kind = .constant then some ⟨k, h⟩ else none

/-- The variable that the user of a layout sees under an index. -/
def external (index : Nat) : Variable := ⟨.ofIndex .external false index, .inl rfl⟩

/-- The auxiliary variable of an element with an index. -/
def localAux (index : Nat) : Variable := ⟨.ofIndex .localAux false index, .inl rfl⟩

/-- The shared auxiliary variable with an index. -/
def globalAux (index : Nat) : Variable := ⟨.ofIndex .globalAux false index, .inl rfl⟩

/-- A variable marked as taken over from a parent scope. -/
def asDerived (x : Variable) : Variable := ⟨{ x.key with derived := true }, x.mentionable⟩

end Variable

end Cassowary
