import Cassowary.Decimal

/-!
# Reading numbers from text

Numbers on a command line are read here. A number is a sign, digits with a point among them, and
a power of ten; infinity and NaN have names. Digits are ASCII.

## Main definitions

* `Decimal.digits` — a run of digits and what follows it
* `Decimal.exponent?` — a power of ten behind `e` or `E`
* `Decimal.readFloat?` — a whole text as a floating-point number
* `Decimal.readNat?` — a whole text as a natural number below a bound
-/

namespace Cassowary

namespace Decimal

/-- The digits at the front of a text, and the rest of it. -/
def digits (cs : List Char) : List Char × List Char := cs.span Char.isDigit

/-- The number that a run of digits is written for. -/
def value (cs : List Char) : Nat := cs.foldl (fun n c => 10 * n + (c.toNat - 48)) 0

/-- A sign at the front of a text: whether it is a minus, and the rest. -/
def sign : List Char → Bool × List Char
  | '-' :: cs => (true, cs)
  | '+' :: cs => (false, cs)
  | cs => (false, cs)

/-- A power of ten that has to fill the text, without the letter in front of it. -/
def exponent? (cs : List Char) : Option Int :=
  let (negative, cs) := sign cs
  match digits cs with
  | ([], _) => none
  | (ds, []) => some (if negative then -(value ds) else value ds)
  | _ => none

/-- A number without a sign: digits, with a point before, among or after them, and then perhaps a
power of ten. -/
def unsigned? (cs : List Char) : Option Decimal :=
  let (whole, rest) := digits cs
  let (fraction, rest) := match rest with
    | '.' :: rest => digits rest
    | _ => ([], rest)
  let ds := whole ++ fraction
  let decimal (power : Int) : Decimal := ⟨false, value ds, power - fraction.length⟩
  match ds, rest with
  | [], _ => none
  | _, [] => some (decimal 0)
  | _, c :: rest => if c = 'e' ∨ c = 'E' then (exponent? rest).map decimal else none

/-- The number that a text without a sign names. -/
def magnitude? (cs : List Char) : Option Float :=
  let name := String.ofList (cs.map Char.toLower)
  if name = "inf" ∨ name = "infinity" then some (1.0 / 0.0)
  else if name = "nan" then some (0.0 / 0.0)
  else (unsigned? cs).map magnitude

/-- The floating-point number that a text is written for. -/
def readFloat? (text : String) : Option Float :=
  let (negative, cs) := sign text.toList
  (magnitude? cs).map fun x => if negative then -x else x

/-- The natural number below `bound` that a text is written for, as an integer with or without a
sign. Zero may have either sign. -/
def readNat? (bound : Nat) (text : String) : Option Nat :=
  let (negative, cs) := sign text.toList
  match digits cs with
  | (d :: ds, []) =>
    let n := value (d :: ds)
    if n < bound ∧ (negative → n = 0) then some n else none
  | _ => none

end Decimal

end Cassowary
