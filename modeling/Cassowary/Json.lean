import Cassowary.Decimal.Reader

/-!
# JSON

Documents are read strictly: one value, with blanks around it and nothing else. Numbers stay the
decimals they are written as, so each reader decides on its own whether one is out of range. Members
keep their order and their repetitions, and a text that escapes half of a surrogate pair is kept as
unreadable, so a reader may pass over it.

## Main definitions

* `Json` — values
* `Json.read?` — the value that a text is written for
* `Json.Text.decode?` — the characters that escapes in a text stand for
-/

namespace Cassowary

/-- A JSON value. An integral number is written with neither a point nor a power of ten. -/
inductive Json where
  | null
  | bool (value : Bool)
  | number (value : Decimal) (integral : Bool)
  | string (content : Option String)
  | array (elements : List Json)
  | object (members : List (Option String × Json))

namespace Json

/-! ## Texts -/

namespace Text

/-- The value of four hexadecimal digits. -/
def hex? (a b c d : Char) : Option Nat :=
  let digit (c : Char) : Option Nat :=
    if c.isDigit then some (c.toNat - '0'.toNat)
    else if 'a' ≤ c ∧ c ≤ 'f' then some (c.toNat - 'a'.toNat + 10)
    else if 'A' ≤ c ∧ c ≤ 'F' then some (c.toNat - 'A'.toNat + 10)
    else none
  [a, b, c, d].foldlM (fun n c => (digit c).map (16 * n + ·)) 0

/-- The character that a one-letter escape stands for. -/
def escape? : Char → Option Char
  | '"' => some '"'
  | '\\' => some '\\'
  | '/' => some '/'
  | 'b' => some '\x08'
  | 'f' => some '\x0c'
  | 'n' => some '\n'
  | 'r' => some '\r'
  | 't' => some '\t'
  | _ => none

/-- The code units of a text up to its closing quote, and what follows the quote. Numbered escapes
may stand for either half of a surrogate pair. -/
def units? : List Char → Option (List Nat × List Char)
  | '"' :: rest => some ([], rest)
  | '\\' :: 'u' :: a :: b :: c :: d :: rest => do
    let unit ← hex? a b c d
    (units? rest).map fun (units, rest) => (unit :: units, rest)
  | '\\' :: c :: rest => do
    let c ← escape? c
    (units? rest).map fun (units, rest) => (c.toNat :: units, rest)
  | c :: rest =>
    if c.toNat < 0x20 then none
    else (units? rest).map fun (units, rest) => (c.toNat :: units, rest)
  | [] => none

/-- The characters of a list of code units, if every surrogate is half of a pair. -/
def decode? : List Nat → Option (List Char)
  | [] => some []
  | unit :: rest =>
    -- A high surrogate needs a low one behind it, and a low one may not come first
    if unit < 0xd800 ∨ 0xdfff < unit then (decode? rest).map (Char.ofNat unit :: ·)
    else match rest with
      | low :: rest =>
        if unit < 0xdc00 ∧ 0xdc00 ≤ low ∧ low ≤ 0xdfff then
          (decode? rest).map (Char.ofNat (0x10000 + (unit - 0xd800) * 0x400 + (low - 0xdc00)) :: ·)
        else none
      | [] => none

/-- A text after its opening quote. -/
def read? (cs : List Char) : Option (Option String × List Char) :=
  (units? cs).map fun (units, rest) => ((decode? units).map String.ofList, rest)

end Text

/-! ## Numbers -/

/-- The digits of the whole part: a zero in front of other digits is refused. -/
def whole? (cs : List Char) : Option (List Char × List Char) :=
  match Decimal.digits cs with
  | ([], _) => none
  | ('0' :: _ :: _, _) => none
  | found => some found

/-- The digits behind a point, if there is one. -/
def fraction? : List Char → Option (List Char × List Char)
  | '.' :: cs => match Decimal.digits cs with
    | ([], _) => none
    | found => some found
  | cs => some ([], cs)

/-- The power of ten behind a letter, if there is one. -/
def power? : List Char → Option (Option Int × List Char)
  | c :: cs =>
    if c = 'e' ∨ c = 'E' then
      let (negative, cs) := Decimal.sign cs
      match Decimal.digits cs with
      | ([], _) => none
      | (ds, rest) =>
        some (some (if negative then -(Decimal.value ds) else Decimal.value ds), rest)
    else some (none, c :: cs)
  | [] => some (none, [])

/-- A number and what follows it. -/
def number? (cs : List Char) : Option (Json × List Char) := do
  let (negative, cs) := match cs with
    | '-' :: cs => (true, cs)
    | cs => (false, cs)
  let (whole, cs) ← whole? cs
  let (fraction, cs) ← fraction? cs
  let (power, cs) ← power? cs
  let coefficient := Decimal.value (whole ++ fraction)
  some (.number ⟨negative, coefficient, power.getD 0 - fraction.length⟩
    (fraction.isEmpty && power.isNone), cs)

/-! ## Values -/

/-- The text without the blanks in front of it. -/
def trimmed (cs : List Char) : List Char :=
  cs.dropWhile fun c => c = ' ' ∨ c = '\n' ∨ c = '\t' ∨ c = '\r'

/-- What follows a word at the front of a text. -/
def after? (word : String) (cs : List Char) : Option (List Char) :=
  if word.toList.isPrefixOf cs then some (cs.drop word.length) else none

mutual

/-- A value and what follows it. Every value takes at least one character, so the length of the text
bounds the depth. -/
def value? : Nat → List Char → Option (Json × List Char)
  | 0, _ => none
  | depth + 1, cs => match trimmed cs with
    | '"' :: cs => (Text.read? cs).map fun (text, cs) => (.string text, cs)
    | '[' :: cs => match trimmed cs with
      | ']' :: cs => some (.array [], cs)
      | cs => (elements? depth cs).map fun (found, cs) => (.array found, cs)
    | '\x7b' :: cs => match trimmed cs with
      | '\x7d' :: cs => some (.object [], cs)
      | cs => (members? depth cs).map fun (found, cs) => (.object found, cs)
    | 'n' :: cs => (after? "ull" cs).map (.null, ·)
    | 't' :: cs => (after? "rue" cs).map (.bool true, ·)
    | 'f' :: cs => (after? "alse" cs).map (.bool false, ·)
    | cs => number? cs

/-- The elements of an array, at least one, and what follows the closing bracket. -/
def elements? : Nat → List Char → Option (List Json × List Char)
  | 0, _ => none
  | depth + 1, cs => do
    let (first, cs) ← value? depth cs
    match trimmed cs with
    | ',' :: cs => (elements? depth cs).map fun (found, cs) => (first :: found, cs)
    | ']' :: cs => some ([first], cs)
    | _ => none

/-- The members of an object, at least one, and what follows the closing brace. -/
def members? : Nat → List Char → Option (List (Option String × Json) × List Char)
  | 0, _ => none
  | depth + 1, cs => match trimmed cs with
    | '"' :: cs => do
      let (name, cs) ← Text.read? cs
      match trimmed cs with
      | ':' :: cs => do
        let (first, cs) ← value? depth cs
        match trimmed cs with
        | ',' :: cs => (members? depth cs).map fun (found, cs) => ((name, first) :: found, cs)
        | '\x7d' :: cs => some ([(name, first)], cs)
        | _ => none
      | _ => none
    | _ => none

end

/-- The value that a text is written for. -/
def read? (text : String) : Option Json := do
  let cs := text.toList
  let (found, rest) ← value? (cs.length + 1) cs
  if (trimmed rest).isEmpty then some found else none

end Json

end Cassowary
