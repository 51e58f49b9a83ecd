import Mathlib.Algebra.Order.Ring.Abs
import Cassowary.Proofs.Row

/-!
# The scale is never seen

A row keeps its coefficients divided by a scale that changes of sign and solving multiply, and that
is folded back now and then. A plain row keeps the coefficients as they are. Whatever is done to
rows, in any order and with any of them used in the making of others, is answered by both alike and
leaves both with the same constant and the same terms in the same order. For this, what counts as
zero is decided for what a cell stands for and not for what is stored, and no scale may ever be
zero.

## Main definitions

* `PlainRow` — coefficients and a constant, without a scale
* `Row.plain` — the plain row that a row stands for
* `Row.Change`, `Row.Reply` — what can be done to rows that have names, and what is answered
* `Row.run`, `PlainRow.run` — the rows after changes one after the other
* `Row.divisors` — what a change divides by
* `Row.InRange` — a row with distinct keys, no zeros in its cells, and a scale within the bounds

## Main results

* `Row.plain_insert`, `Row.plain_solveFor?` — operations on a row are operations on what it stands
  for
* `Row.perform_plain`, `Row.InRange.perform`, `Row.divisors_ne_zero` — one change
* `Row.foldl_step_plain` — any number of changes
* `Row.run_refines` — rows and plain rows answer alike, and nothing is divided by zero
-/

namespace Cassowary

/-- A constant and terms. The coefficient of a key is its cell. -/
@[ext] structure PlainRow (α : Type) where
  cells : Table Key α
  constant : α

namespace PlainRow

variable {α : Type} [Scalar α]

/-- A constant alone. -/
def ofConstant (c : α) : PlainRow α := ⟨∅, c⟩

/-- How many terms there are. -/
def size (p : PlainRow α) : Nat := p.cells.size

/-- The terms, oldest first. -/
def terms (p : PlainRow α) : List (Term Key α) := p.cells.entries.map fun e => ⟨e.1, e.2⟩

/-- Adds to the constant. -/
def addConstant (p : PlainRow α) (delta : α) : PlainRow α := { p with constant := p.constant + delta }

/-- Adds a term. A coefficient that counts as zero afterwards leaves no term. -/
def insert (p : PlainRow α) (t : Term Key α) : PlainRow α :=
  { p with cells := p.cells.alter t.var fun
      | some c =>
        if Scalar.negligible (c + t.coefficient) then none else some (c + t.coefficient)
      | none => if Scalar.negligible t.coefficient then none else some t.coefficient }

/-- Adds terms one after the other. -/
def insertAll (p : PlainRow α) (ts : List (Term Key α)) : PlainRow α := ts.foldl insert p

/-- Adds a multiple of another row. -/
def insertRow (p other : PlainRow α) (factor : α) : PlainRow α :=
  (p.addConstant (other.constant * factor)).insertAll (other.terms.map (·.scaled factor))

/-- The row of a constraint, without the relation. -/
def ofConstraint (c : Constraint α) : PlainRow α := (ofConstant c.constant).insertAll c.terms

/-- Takes the term of a key away. -/
def remove (p : PlainRow α) (k : Key) : PlainRow α := { p with cells := p.cells.erase k }

/-- The row with a key replaced by a row that a multiple of it is equal to, if the key has a
term. -/
def substitute? (p : PlainRow α) (target : Term Key α) (replacement : PlainRow α) :
    Option (PlainRow α) :=
  (p.cells.get? target.var).map fun c =>
    (p.remove target.var).insertRow replacement (c / target.coefficient)

/-- Replaces a key by a row that a multiple of it is equal to. -/
def substitute (p : PlainRow α) (target : Term Key α) (replacement : PlainRow α) : PlainRow α :=
  (p.substitute? target replacement).getD p

/-- The negated row. -/
def reverseSign (p : PlainRow α) : PlainRow α := ⟨p.cells.mapValues fun _ c => -c, -p.constant⟩

/-- The row or the negated row, whichever has a constant that is not negative. -/
def normalize (p : PlainRow α) : PlainRow α := if p.constant < 0 then p.reverseSign else p

/-- The row times a factor. -/
def times (p : PlainRow α) (factor : α) : PlainRow α :=
  ⟨p.cells.mapValues fun _ c => c * factor, p.constant * factor⟩

/-- From `0 = row`, the row of a key, if the key has a term. -/
def solveFor? (p : PlainRow α) (k : Key) : Option (PlainRow α) :=
  (p.cells.get? k).map fun c => (p.remove k).times (-1 / c)

/-- From `0 = row`, the row of a key. Without a term for the key nothing changes. -/
def solveFor (p : PlainRow α) (k : Key) : PlainRow α := (p.solveFor? k).getD p

/-- The equation `0 = row - basic`, if the row has a term for `k`. -/
def equated (p : PlainRow α) (basic k : Key) : PlainRow α :=
  if p.cells.contains k then p.insert ⟨basic, -1⟩ else p

end PlainRow

namespace Row

/-! ## What can be done to rows -/

/-- What can be done to a row. Other rows that take part have names. Where a key is replaced, a
multiple of it has to be equal to the replacement, and not the zeroth. -/
inductive Change (ι α : Type) [Scalar α] where
  | new (c : α)
  | ofConstraint (c : Constraint α)
  | addConstant (delta : α)
  | insert (t : Term Key α)
  | insertRow (other : ι) (factor : α)
  | remove (k : Key)
  | substitute (target : Term Key α) (replacement : ι) (regular : target.coefficient ≠ 0)
  | normalize
  | reverseSign
  | solveFor (k : Key)
  | solveForPair (basic k : Key)
  | foldScale

/-- What is answered: nothing, the coefficient that was taken away, or whether something changed. -/
inductive Reply (α : Type) where
  | done
  | taken (coefficient : Option α)
  | told (changed : Bool)
  deriving DecidableEq

variable {ι α : Type} [Scalar α]

/-- Does something to a row. -/
def perform (rows : ι → Row α) (i : ι) : Change ι α → Reply α × Row α
  | .new c => (.done, .ofConstant c)
  | .ofConstraint c => (.done, .ofConstraint c)
  | .addConstant delta => (.done, (rows i).addConstant delta)
  | .insert t => (.done, (rows i).insert t)
  | .insertRow other factor => (.done, (rows i).insertRow (rows other) factor)
  | .remove k => (.taken (((rows i).find? k).map (·.coefficient)), (rows i).remove k)
  | .substitute target replacement _ =>
    (.told ((rows i).substitute? target (rows replacement)).isSome,
      (rows i).substitute target (rows replacement))
  | .normalize => (.told (rows i).isNegative, (rows i).normalize)
  | .reverseSign => (.done, (rows i).reverseSign)
  | .solveFor k => (.told ((rows i).solveFor? k).isSome, (rows i).solveFor k)
  | .solveForPair basic k =>
    (.told ((rows i).solveForPair? basic k).isSome, (rows i).solveForPair basic k)
  | .foldScale => (.done, (rows i).foldScale)

variable [DecidableEq ι]

/-- The rows after something is done to one of them. -/
def step (rows : ι → Row α) (e : ι × Change ι α) : ι → Row α :=
  Function.update rows e.1 (perform rows e.1 e.2).2

/-- The rows after changes one after the other. At first, every name is that of an empty row. -/
def run (cs : List (ι × Change ι α)) : ι → Row α := cs.foldl step fun _ => default

omit [DecidableEq ι]

/-- What is divided by where terms are inserted one after the other: the scale, each time. -/
def insertDivisors (r : Row α) : List (Term Key α) → List α
  | [] => []
  | t :: ts => r.scale :: (r.insert t).insertDivisors ts

/-- What is divided by where a multiple of another row is added. -/
def insertRowDivisors (r other : Row α) (factor : α) : List α :=
  (r.addConstant (other.constant * factor)).insertDivisors (other.terms.map (·.scaled factor))

/-- What is divided by where a row is solved: the coefficient of the key, if it has one. -/
def solveDivisors (r : Row α) (k : Key) : List α := ((r.find? k).map (·.coefficient)).toList

/-- What is divided by where something is done to a row. -/
def divisors (rows : ι → Row α) (i : ι) : Change ι α → List α
  | .ofConstraint c => (ofConstant c.constant).insertDivisors c.terms
  | .insert t => (rows i).insertDivisors [t]
  | .insertRow other factor => (rows i).insertRowDivisors (rows other) factor
  | .substitute target replacement _ =>
    match (rows i).find? target.var with
    | some t => target.coefficient ::
        ((rows i).remove target.var).insertRowDivisors (rows replacement)
          (t.coefficient / target.coefficient)
    | none => []
  | .solveFor k => (rows i).solveDivisors k
  | .solveForPair basic k =>
    if (rows i).contains k then
      (rows i).insertDivisors [⟨basic, -1⟩] ++ ((rows i).insert ⟨basic, -1⟩).solveDivisors k
    else []
  | _ => []

end Row

namespace PlainRow

variable {ι α : Type} [Scalar α]

/-- Does to a plain row what is done to a row. There is no scale to fold. -/
def perform (rows : ι → PlainRow α) (i : ι) :
    Row.Change ι α → Row.Reply α × PlainRow α
  | .new c => (.done, .ofConstant c)
  | .ofConstraint c => (.done, .ofConstraint c)
  | .addConstant delta => (.done, (rows i).addConstant delta)
  | .insert t => (.done, (rows i).insert t)
  | .insertRow other factor => (.done, (rows i).insertRow (rows other) factor)
  | .remove k => (.taken ((rows i).cells.get? k), (rows i).remove k)
  | .substitute target replacement _ =>
    (.told ((rows i).substitute? target (rows replacement)).isSome,
      (rows i).substitute target (rows replacement))
  | .normalize => (.told ((rows i).constant < 0), (rows i).normalize)
  | .reverseSign => (.done, (rows i).reverseSign)
  | .solveFor k => (.told ((rows i).solveFor? k).isSome, (rows i).solveFor k)
  | .solveForPair basic k =>
    (.told (((rows i).equated basic k).solveFor? k).isSome, ((rows i).equated basic k).solveFor k)
  | .foldScale => (.done, rows i)

variable [DecidableEq ι]

/-- The rows after something is done to one of them. -/
def step (rows : ι → PlainRow α) (e : ι × Row.Change ι α) : ι → PlainRow α :=
  Function.update rows e.1 (perform rows e.1 e.2).2

/-- The rows after changes one after the other. At first, every name is that of an empty row. -/
def run (cs : List (ι × Row.Change ι α)) : ι → PlainRow α := cs.foldl step fun _ => .ofConstant 0

end PlainRow

namespace Row

/-! ## What a row stands for -/

/-- The plain row that a row stands for. -/
def plain {α : Type} [Scalar α] (r : Row α) : PlainRow α :=
  ⟨r.cells.mapValues fun _ c => c * r.scale, r.constant⟩

section Plain

variable {α : Type} [Scalar α]

@[simp] theorem constant_plain (r : Row α) : r.plain.constant = r.constant := rfl

@[simp] theorem size_plain (r : Row α) : r.plain.size = r.size := List.length_map _

@[simp] theorem terms_plain (r : Row α) : r.plain.terms = r.terms := List.map_map

theorem get?_cells_plain (r : Row α) (k : Key) :
    r.plain.cells.get? k = (r.find? k).map (·.coefficient) := by
  rw [plain, Table.get?_mapValues, find?, Option.map_map]
  rfl

@[simp] theorem contains_cells_plain (r : Row α) (k : Key) :
    r.plain.cells.contains k = r.contains k := by
  rw [Table.contains, get?_cells_plain, Option.isSome_map, isSome_find?]

theorem plain_addConstant (r : Row α) (delta : α) :
    (r.addConstant delta).plain = r.plain.addConstant delta := rfl

theorem plain_remove (r : Row α) (k : Key) : (r.remove k).plain = r.plain.remove k :=
  PlainRow.ext (Table.mapValues_alter (g := fun _ c => c * r.scale) rfl) rfl

end Plain

/-! ## Operations that look at no tolerance -/

section Tolerance

variable {tolerance : Rat} {r : Row (Tolerant tolerance)}

theorem plain_reverseSign (r : Row (Tolerant tolerance)) :
    r.reverseSign.plain = r.plain.reverseSign := by
  apply PlainRow.ext
  · simp [plain, reverseSign, PlainRow.reverseSign]
  · rfl

theorem plain_normalize (r : Row (Tolerant tolerance)) : r.normalize.plain = r.plain.normalize := by
  rw [normalize, isNegative, PlainRow.normalize, constant_plain]
  by_cases h : r.constant < 0
  · rw [if_pos (decide_eq_true h), if_pos h, plain_reverseSign]
  · rw [if_neg (by simpa using h), if_neg h]

theorem plain_foldScale (r : Row (Tolerant tolerance)) : r.foldScale.plain = r.plain := by
  simp only [foldScale]
  split
  · rfl
  · simp [plain]

/-- To multiply the scale and the constant multiplies what the row stands for. -/
theorem plain_times (r : Row (Tolerant tolerance)) (factor : Tolerant tolerance) :
    plain { r with scale := r.scale * factor, constant := r.constant * factor } =
      r.plain.times factor := by
  apply PlainRow.ext
  · simp [plain, PlainRow.times, mul_assoc]
  · rfl

theorem plain_solveFor? (r : Row (Tolerant tolerance)) (k : Key) :
    (r.solveFor? k).map plain = r.plain.solveFor? k := by
  rw [solveFor?, PlainRow.solveFor?, get?_cells_plain, Option.map_map, Option.map_map]
  refine congrArg (Option.map · (r.find? k)) (funext fun t => ?_)
  rw [Function.comp_apply, Function.comp_apply, plain_foldScale, plain_times, plain_remove]

theorem isSome_solveFor?_plain (r : Row (Tolerant tolerance)) (k : Key) :
    (r.plain.solveFor? k).isSome = (r.solveFor? k).isSome := by
  rw [← plain_solveFor?, Option.isSome_map]

theorem plain_solveFor (r : Row (Tolerant tolerance)) (k : Key) :
    (r.solveFor k).plain = r.plain.solveFor k := by
  rw [solveFor, PlainRow.solveFor, ← plain_solveFor?, Option.getD_map]

/-! ## Operations that look at the tolerance -/

/-- A term is merged with what a cell stands for, and dropped where that counts as zero. -/
theorem plain_insert (hs : r.scale ≠ 0) (t : Term Key (Tolerant tolerance)) :
    (r.insert t).plain = r.plain.insert t := by
  refine PlainRow.ext (Table.mapValues_alter (g := fun _ c => c * r.scale) ?_) rfl
  cases r.cells.get? t.var with
  | none =>
    simp only [Option.map_none]
    split
    · rfl
    · rw [Option.map_some, div_mul_cancel₀ _ hs]
  | some c =>
    have hmerged : (c + t.coefficient / r.scale) * r.scale = c * r.scale + t.coefficient := by
      rw [add_mul, div_mul_cancel₀ _ hs]
    simp only [Option.map_some, hmerged]
    split
    · rfl
    · rw [Option.map_some, hmerged]

theorem plain_insertAll (hs : r.scale ≠ 0) (ts : List (Term Key (Tolerant tolerance))) :
    (r.insertAll ts).plain = r.plain.insertAll ts := by
  induction ts generalizing r with
  | nil => rfl
  | cons t rest ih =>
    rw [insertAll_cons, ih (r := r.insert t) hs, plain_insert hs]
    rfl

theorem plain_insertRow (hs : r.scale ≠ 0) (other : Row (Tolerant tolerance))
    (factor : Tolerant tolerance) :
    (r.insertRow other factor).plain = r.plain.insertRow other.plain factor := by
  have hscale : (r.addConstant (other.constant * factor)).scale ≠ 0 := hs
  rw [insertRow, plain_insertAll hscale, plain_addConstant, PlainRow.insertRow, terms_plain,
    constant_plain]

theorem plain_ofConstraint (c : Constraint (Tolerant tolerance)) :
    (ofConstraint c).plain = PlainRow.ofConstraint c :=
  plain_insertAll (r := ofConstant c.constant) one_ne_zero c.terms

theorem plain_substitute? (hs : r.scale ≠ 0) (t : Term Key (Tolerant tolerance))
    (other : Row (Tolerant tolerance)) :
    (r.substitute? t other).map plain = r.plain.substitute? t other.plain := by
  rw [substitute?, PlainRow.substitute?, get?_cells_plain, Option.map_map, Option.map_map]
  refine congrArg (Option.map · (r.find? t.var)) (funext fun found => ?_)
  rw [Function.comp_apply, Function.comp_apply,
    plain_insertRow (show (r.remove t.var).scale ≠ 0 from hs), plain_remove]

theorem plain_substitute (hs : r.scale ≠ 0) (t : Term Key (Tolerant tolerance))
    (other : Row (Tolerant tolerance)) :
    (r.substitute t other).plain = r.plain.substitute t other.plain := by
  rw [substitute, PlainRow.substitute, ← plain_substitute? hs, Option.getD_map]

theorem isSome_substitute?_plain (hs : r.scale ≠ 0) (t : Term Key (Tolerant tolerance))
    (other : Row (Tolerant tolerance)) :
    (r.plain.substitute? t other.plain).isSome = (r.substitute? t other).isSome := by
  rw [← plain_substitute? hs, Option.isSome_map]

theorem plain_equated (hs : r.scale ≠ 0) (basic k : Key) :
    (r.equated basic k).plain = r.plain.equated basic k := by
  rw [equated, PlainRow.equated, contains_cells_plain]
  split
  · exact plain_insert hs _
  · rfl

/-- What is done to rows is done to what they stand for, and the answer is the same. -/
theorem perform_plain {ι : Type} {rows : ι → Row (Tolerant tolerance)}
    (hs : ∀ i, (rows i).scale ≠ 0) (i : ι) (c : Change ι (Tolerant tolerance)) :
    PlainRow.perform (fun j => (rows j).plain) i c =
      ((perform rows i c).1, (perform rows i c).2.plain) := by
  cases c with
  | new c => rfl
  | ofConstraint c => exact Prod.ext rfl (plain_ofConstraint c).symm
  | addConstant delta => rfl
  | insert t => exact Prod.ext rfl (plain_insert (hs i) t).symm
  | insertRow other factor =>
    exact Prod.ext rfl (plain_insertRow (hs i) (rows other) factor).symm
  | remove k => exact Prod.ext (congrArg Reply.taken (get?_cells_plain _ k)) (plain_remove _ k).symm
  | substitute t other regular =>
    exact Prod.ext (congrArg Reply.told (isSome_substitute?_plain (hs i) t (rows other)))
      (plain_substitute (hs i) t (rows other)).symm
  | normalize => exact Prod.ext rfl (plain_normalize (rows i)).symm
  | reverseSign => exact Prod.ext rfl (plain_reverseSign (rows i)).symm
  | solveFor k =>
    exact Prod.ext (congrArg Reply.told (isSome_solveFor?_plain (rows i) k))
      (plain_solveFor (rows i) k).symm
  | solveForPair basic k =>
    rw [PlainRow.perform, ← plain_equated (hs i)]
    exact Prod.ext (congrArg Reply.told (isSome_solveFor?_plain ((rows i).equated basic k) k))
      (plain_solveFor ((rows i).equated basic k) k).symm
  | foldScale => exact Prod.ext rfl (plain_foldScale (rows i)).symm

end Tolerance

/-! ## The range of the scale -/

section InRange

variable {tolerance : Rat} {r : Row (Tolerant tolerance)}

/-- The keys of a row are distinct, its cells hold something, and its scale is within the bounds
that folding keeps it in. -/
structure InRange (r : Row (Tolerant tolerance)) : Prop extends r.Proper where
  nodup_keys : r.keys.Nodup
  floor_le : 1 / 10 ^ 6 ≤ |r.scale|
  le_ceiling : |r.scale| ≤ 10 ^ 6

/-- A proper row is within the range where its scale has the size of one that is. -/
theorem Proper.inRange (h : r.Proper) {r' : Row (Tolerant tolerance)} (h' : r'.InRange)
    (hscale : |r.scale| = |r'.scale|) : r.InRange where
  toProper := h
  nodup_keys := r.cells.nodup_keys
  floor_le := hscale ▸ h'.floor_le
  le_ceiling := hscale ▸ h'.le_ceiling

theorem inRange_ofConstant (c : Tolerant tolerance) : (ofConstant c).InRange where
  toProper := proper_ofConstant c
  nodup_keys := (ofConstant c).cells.nodup_keys
  floor_le := by
    have hexact : (1 : Rat) / 10 ^ 6 ≤ |1| := by norm_num
    exact hexact
  le_ceiling := by
    have hexact : |1| ≤ (10 : Rat) ^ 6 := by norm_num
    exact hexact

theorem scaleFloor_eq : (scaleFloor : Tolerant tolerance) = 1 / 10 ^ 6 := by
  have hexact : (scaleFloor : Rat) = 1 / 10 ^ 6 := by decide +kernel
  exact hexact

theorem scaleCeiling_eq : (scaleCeiling : Tolerant tolerance) = 10 ^ 6 := by
  have hexact : (scaleCeiling : Rat) = 10 ^ 6 := by decide +kernel
  exact hexact

/-- Wherever the scale is, folding brings it into the range. -/
theorem Proper.inRange_foldScale (h : r.Proper) : r.foldScale.InRange := by
  have hproper : r.foldScale.Proper := h.foldScale
  simp only [Row.foldScale] at hproper ⊢
  split
  · next hbounds =>
    rw [if_pos hbounds] at hproper
    rw [Scalar.magnitude_eq_abs, scaleFloor_eq, scaleCeiling_eq] at hbounds
    exact ⟨hproper, r.cells.nodup_keys, hbounds.1, hbounds.2⟩
  · next hbounds =>
    rw [if_neg hbounds] at hproper
    exact hproper.inRange (inRange_ofConstant 0) rfl

namespace InRange

theorem reverseSign (h : r.InRange) : r.reverseSign.InRange :=
  Proper.inRange (Proper.reverseSign h.toProper) h (abs_neg r.scale)

theorem normalize (h : r.InRange) : r.normalize.InRange := by
  rcases normalize_eq_or r with heq | heq <;> rw [heq]
  · exact h
  · exact h.reverseSign

/-- The scale that solving leaves has just been folded. -/
theorem solveFor (h : r.InRange) (k : Key) : (r.solveFor k).InRange := by
  cases hk : r.contains k with
  | false =>
    rw [Row.solveFor, Row.solveFor?, find?_eq_none_iff.mpr hk]
    exact h
  | true =>
    have hne : r.coefficientFor k ≠ 0 := h.toProper.contains_iff.mp hk
    rw [solveFor_eq hne]
    exact Proper.inRange_foldScale ⟨mul_ne_zero h.scale_ne_zero (div_ne_zero (by norm_num) hne),
      (h.toProper.remove k).cell_ne_zero⟩

theorem insert (h : r.InRange) (t : Term Key (Tolerant tolerance)) : (r.insert t).InRange :=
  (h.toProper.insert_tolerant t).inRange h rfl

theorem insertAll (h : r.InRange) (ts : List (Term Key (Tolerant tolerance))) :
    (r.insertAll ts).InRange := by
  induction ts generalizing r with
  | nil => exact h
  | cons t rest ih => exact ih (h.insert t)

theorem insertRow (h : r.InRange) (other : Row (Tolerant tolerance)) (factor : Tolerant tolerance) :
    (r.insertRow other factor).InRange := by
  have hadded : (r.addConstant (other.constant * factor)).InRange :=
    Proper.inRange (h.toProper.addConstant _) h rfl
  exact hadded.insertAll _

theorem substitute (h : r.InRange) (t : Term Key (Tolerant tolerance))
    (other : Row (Tolerant tolerance)) : (r.substitute t other).InRange := by
  cases hr : r.contains t.var with
  | false => rwa [substitute_of_not_contains hr]
  | true =>
    rw [substitute_of_contains hr]
    have hremoved : (r.remove t.var).InRange := Proper.inRange (h.toProper.remove t.var) h rfl
    exact hremoved.insertRow other _

theorem equated (h : r.InRange) (basic k : Key) : (r.equated basic k).InRange := by
  rw [Row.equated]
  split
  · exact h.insert _
  · exact h

/-- Whatever is done to rows within the range leaves them there. -/
theorem perform {ι : Type} {rows : ι → Row (Tolerant tolerance)} (h : ∀ i, (rows i).InRange) (i : ι)
    (c : Change ι (Tolerant tolerance)) : (perform rows i c).2.InRange := by
  cases c with
  | new c => exact inRange_ofConstant c
  | ofConstraint c => exact (inRange_ofConstant c.constant).insertAll c.terms
  | addConstant delta => exact Proper.inRange ((h i).toProper.addConstant delta) (h i) rfl
  | insert t => exact (h i).insert t
  | insertRow other factor => exact (h i).insertRow (rows other) factor
  | remove k => exact Proper.inRange ((h i).toProper.remove k) (h i) rfl
  | substitute t other regular => exact (h i).substitute t (rows other)
  | normalize => exact (h i).normalize
  | reverseSign => exact (h i).reverseSign
  | solveFor k => exact (h i).solveFor k
  | solveForPair basic k => exact ((h i).equated basic k).solveFor k
  | foldScale => exact (h i).toProper.inRange_foldScale

end InRange

/-! ## Divisions -/

theorem insertDivisors_ne_zero (hs : r.scale ≠ 0) {ts : List (Term Key (Tolerant tolerance))} :
    ∀ d ∈ r.insertDivisors ts, d ≠ 0 := by
  induction ts generalizing r with
  | nil => intro d hd; cases hd
  | cons t rest ih =>
    intro d hd
    rcases List.mem_cons.mp hd with rfl | hd
    · exact hs
    · exact ih (r := r.insert t) hs d hd

theorem insertRowDivisors_ne_zero (hs : r.scale ≠ 0) {other : Row (Tolerant tolerance)}
    {factor : Tolerant tolerance} : ∀ d ∈ r.insertRowDivisors other factor, d ≠ 0 :=
  insertDivisors_ne_zero (r := r.addConstant (other.constant * factor)) hs

theorem Proper.solveDivisors_ne_zero (h : r.Proper) {k : Key} :
    ∀ d ∈ r.solveDivisors k, d ≠ 0 := by
  intro d hd
  rw [solveDivisors, Option.mem_toList, Option.map_eq_some_iff] at hd
  obtain ⟨t, ht, rfl⟩ := hd
  obtain ⟨c, hc, rfl⟩ := Option.map_eq_some_iff.mp ht
  exact mul_ne_zero (h.cell_ne_zero hc) h.scale_ne_zero

theorem divisors_ne_zero {ι : Type} {rows : ι → Row (Tolerant tolerance)}
    (h : ∀ i, (rows i).InRange) (i : ι) (c : Change ι (Tolerant tolerance)) :
    ∀ d ∈ divisors rows i c, d ≠ 0 := by
  have hs : (rows i).scale ≠ 0 := (h i).scale_ne_zero
  cases c with
  | ofConstraint c => exact insertDivisors_ne_zero (r := ofConstant c.constant) one_ne_zero
  | insert t => exact insertDivisors_ne_zero hs
  | insertRow other factor => exact insertRowDivisors_ne_zero hs
  | substitute t other regular =>
    intro d hd
    rw [divisors] at hd
    split at hd
    · rcases List.mem_cons.mp hd with rfl | hd
      · exact regular
      · exact insertRowDivisors_ne_zero (r := (rows i).remove t.var) hs d hd
    · cases hd
  | solveFor k => exact (h i).toProper.solveDivisors_ne_zero
  | solveForPair basic k =>
    intro d hd
    rw [divisors] at hd
    split at hd
    · rcases List.mem_append.mp hd with hd | hd
      · exact insertDivisors_ne_zero hs d hd
      · exact ((h i).insert ⟨basic, -1⟩).toProper.solveDivisors_ne_zero d hd
    · cases hd
  | _ => intro d hd; cases hd

/-! ## Any number of changes -/

/-- After the same changes, rows that were within the range still are, and they stand for what has
become of the plain rows that they stood for. -/
theorem foldl_step_plain {ι : Type} [DecidableEq ι] (cs : List (ι × Change ι (Tolerant tolerance)))
    {rows : ι → Row (Tolerant tolerance)} (h : ∀ i, (rows i).InRange) :
    (∀ i, (cs.foldl step rows i).InRange) ∧
      cs.foldl PlainRow.step (fun i => (rows i).plain) = fun i => (cs.foldl step rows i).plain := by
  induction cs generalizing rows with
  | nil => exact ⟨h, rfl⟩
  | cons e rest ih =>
    have hrange : ∀ i, (step rows e i).InRange := by
      intro i
      rw [step]
      by_cases hi : i = e.1
      · subst hi
        rw [Function.update_self]
        exact InRange.perform h _ _
      · rw [Function.update_of_ne hi]
        exact h i
    have hplain : PlainRow.step (fun i => (rows i).plain) e = fun i => (step rows e i).plain := by
      rw [PlainRow.step, perform_plain fun i => (h i).scale_ne_zero]
      exact (Function.comp_update plain rows e.1 _).symm
    rw [List.foldl_cons, List.foldl_cons, hplain]
    exact ih hrange

/-- Rows after any changes and plain rows after the same changes have the same constants and the
same terms in the same order, and whatever is done next is answered by both alike. Nothing that it
divides by is zero, since no coefficient is and the scale of each row is within its bounds. -/
theorem run_refines {ι : Type} [DecidableEq ι] (cs : List (ι × Change ι (Tolerant tolerance))) :
    (∀ i, (run cs i).InRange ∧ (run cs i).constant = (PlainRow.run cs i).constant ∧
      (run cs i).terms = (PlainRow.run cs i).terms ∧
      (run cs i).size = (PlainRow.run cs i).size) ∧
    ∀ i c, (perform (run cs) i c).1 = (PlainRow.perform (PlainRow.run cs) i c).1 ∧
      ∀ d ∈ divisors (run cs) i c, d ≠ 0 := by
  have hstart : ∀ i : ι, ((fun _ => default : ι → Row (Tolerant tolerance)) i).InRange :=
    fun _ => inRange_ofConstant 0
  have hrange : ∀ i, (run cs i).InRange := (foldl_step_plain cs hstart).1
  have hrun : PlainRow.run cs = fun i => (run cs i).plain := (foldl_step_plain cs hstart).2
  refine ⟨fun i => ⟨hrange i, ?_, ?_, ?_⟩, fun i c => ⟨?_, divisors_ne_zero hrange i c⟩⟩
  · rw [hrun, constant_plain]
  · rw [hrun, terms_plain]
  · rw [hrun, size_plain]
  · rw [hrun, perform_plain fun i => (hrange i).scale_ne_zero]

end InRange

/-- Changes of two rows that go through changed signs, a folded scale, and a coefficient that nearly
cancels. -/
def busy (tolerance : Rat) : List (Bool × Change Bool (Tolerant tolerance)) :=
  [(true, .new 6), (true, .insert ⟨.ofIndex .external false 0, 1 / 10 ^ 7⟩),
    (true, .insert ⟨.ofIndex .external false 1, 3⟩), (true, .reverseSign),
    (true, .solveFor (.ofIndex .external false 0)), (true, .insert ⟨.ofIndex .slack false 0, 1⟩),
    (false, .new (-1)), (false, .insert ⟨.ofIndex .external false 1, 2⟩), (false, .normalize),
    (false, .insertRow true (-(2 + 1 / 10 ^ 9) / (3 * 10 ^ 7)))]

/-- With the tolerance that is the default, the scales of the two rows come to one and minus one,
and the coefficient that nearly cancels is dropped by the row and by the plain row. -/
theorem run_refines_busy :
    (run (busy (1 / 10 ^ 8)) true).scale = 1 ∧ (run (busy (1 / 10 ^ 8)) false).scale = -1 ∧
    (run (busy (1 / 10 ^ 8)) false).terms =
      [⟨.ofIndex .slack false 0, -(2 + 1 / 10 ^ 9) / (3 * 10 ^ 7)⟩] ∧
    (run (busy (1 / 10 ^ 8)) false).InRange ∧
    (run (busy (1 / 10 ^ 8)) false).terms = (PlainRow.run (busy (1 / 10 ^ 8)) false).terms := by
  obtain ⟨hrange, -, hterms, -⟩ := (run_refines (busy (1 / 10 ^ 8))).1 false
  exact ⟨by decide +kernel, by decide +kernel, by decide +kernel, hrange, hterms⟩

end Row

end Cassowary
