/-!
# Keys

Everything that can stand in a row has a key: the variables of a layout, and the symbols which the
solver brings in itself. A key is a kind, an index within the kind and a mark for variables that
were taken over from a parent scope. The three fill one 32-bit word:

    bits 31 to 28   kind
    bit 27          derived
    bits 26 to 0    index

The order of keys is that of their words.

## Main definitions

* `Kind` — what a key stands for
* `Key` — a kind, an index and the mark of derived variables
* `Key.ofIndex?`, `Key.ofIndex` — the key of an index, refused or reduced beyond the last one
* `Key.pack`, `Key.unpack?` — the word of a key, and the key of a word
* `Key.text` — a letter for the kind, the index, and a prime for derived keys
-/

namespace Cassowary

/-- What a key stands for. -/
inductive Kind where
  /-- The number one: its coefficient belongs to the constant of a row. -/
  | constant
  /-- An auxiliary variable of a single element. -/
  | localAux
  /-- An auxiliary variable shared across elements. -/
  | globalAux
  /-- The identity of the objective. -/
  | objective
  /-- A variable that the user of a layout sees. -/
  | external
  /-- The distance from an inequality to its bound. -/
  | slack
  /-- The amount by which a constraint may be violated, at a price. -/
  | error
  /-- The marker of a required equality, zero throughout. -/
  | dummy
  /-- A variable that lives only while a first feasible basis is sought. -/
  | artificial
  deriving DecidableEq, Repr

namespace Kind

/-- All kinds, in the order of their codes. -/
def all : List Kind :=
  [constant, localAux, globalAux, objective, external, slack, error, dummy, artificial]

/-- The number of a kind in the topmost bits of a packed key. -/
def code : Kind → BitVec 4
  | constant => 0
  | localAux => 1
  | globalAux => 2
  | objective => 3
  | external => 4
  | slack => 5
  | error => 6
  | dummy => 7
  | artificial => 8

/-- The kind with a given code. -/
def ofCode? (c : BitVec 4) : Option Kind := all.find? fun k => k.code = c

/-- The letter that a key of the kind is written with. -/
def letter : Kind → Char
  | constant => 'c'
  | localAux => 'l'
  | globalAux => 'g'
  | objective => 'z'
  | external => 'v'
  | slack => 's'
  | error => 'e'
  | dummy => 'd'
  | artificial => 'a'

/-- The kind with a given letter. -/
def ofLetter? (c : Char) : Option Kind := all.find? fun k => k.letter = c

/-- Layout variables: they may take any sign, so no row of theirs is ever infeasible. -/
def unrestricted : Kind → Bool
  | external | localAux | globalAux => true
  | _ => false

/-- The only kinds that enter the basis while a tableau is optimised. -/
def pivotable : Kind → Bool
  | slack | error => true
  | _ => false

/-- The kinds that the solver brings in itself. -/
def internal : Kind → Bool
  | slack | error | dummy | artificial => true
  | _ => false

end Kind

/-- The identity of a variable or symbol. -/
structure Key where
  kind : Kind
  derived : Bool
  index : BitVec 27
  deriving DecidableEq, Repr

namespace Key

/-- How many bits the index takes. -/
def indexBits : Nat := 27

/-- The largest index. -/
def maxIndex : Nat := (1 <<< indexBits) - 1

/-- The key with an index, reduced to the bits that there are for it. -/
def ofIndex (kind : Kind) (derived : Bool) (index : Nat) : Key :=
  ⟨kind, derived, BitVec.ofNat 27 index⟩

/-- The key with an index, unless the index is too large. -/
def ofIndex? (kind : Kind) (derived : Bool) (index : Nat) : Option Key :=
  if index ≤ maxIndex then some (ofIndex kind derived index) else none

/-- The key of the objective. -/
def objective : Key := ofIndex .objective false 0

/-- Whether the key names a layout variable. -/
def unrestricted (k : Key) : Bool := k.kind.unrestricted

/-- Whether the key may enter the basis while a tableau is optimised. -/
def pivotable (k : Key) : Bool := k.kind.pivotable

/-- Whether the solver brought the key in itself. -/
def internal (k : Key) : Bool := k.kind.internal

/-- Whether the key names a variable that the user of a layout sees. -/
def external (k : Key) : Bool := k.kind = .external

/-- Whether the key marks a required equality. -/
def dummy (k : Key) : Bool := k.kind = .dummy

/-! ## The packed word -/

/-- The key as one word. -/
def pack (k : Key) : BitVec 32 := k.kind.code ++ BitVec.ofBool k.derived ++ k.index

/-- The key that a word is, if its topmost bits are the code of a kind. -/
def unpack? (w : BitVec 32) : Option Key :=
  (Kind.ofCode? (w.extractLsb' 28 4)).map (⟨·, w.getLsbD 27, w.extractLsb' 0 27⟩)

instance : LT Key := ⟨fun a b => a.pack < b.pack⟩

instance : DecidableLT Key := fun a b => inferInstanceAs (Decidable (a.pack < b.pack))

/-- The keys in ascending order, repeated ones included. -/
def sort (ks : List Key) : List Key := ks.mergeSort fun a b => a.pack ≤ b.pack

/-! ## Text -/

/-- The text of a key. -/
def text (k : Key) : String :=
  String.singleton k.kind.letter ++ toString k.index.toNat ++ if k.derived then "\x27" else ""

end Key

end Cassowary
