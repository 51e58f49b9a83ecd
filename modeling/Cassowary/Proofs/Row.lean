import Mathlib.Algebra.BigOperators.Ring.Finset
import Mathlib.Algebra.Order.Field.Rat
import Mathlib.Data.Fintype.Prod
import Mathlib.Tactic.FieldSimp
import Mathlib.Tactic.Linarith
import Mathlib.Tactic.Ring
import Cassowary.Proofs.Packing
import Cassowary.Proofs.Table
import Cassowary.Row.Lemmas

/-!
# Rows in exact arithmetic

Over the rationals, with only zero counting as zero, a row is a linear form: a constant and a
coefficient for each key. Every operation on rows is told here by what it does to the coefficients,
to the constant and to the value at an assignment. Nothing of the scale or of the cells is left in
these statements, so nothing that follows from them depends on how a row is stored. The rationals
with a tolerance are the same ordered field, and some of the statements hold over them as well.

## Main definitions

* `Row.Proper` — a row whose terms are those with a coefficient other than zero
* `Scalar.settled` — a number, or zero where it counts as zero

## Main results

* `Row.coefficientFor_insert_settled` — with a tolerance, a sum that counts as zero is dropped
* `Row.evaluate_eq` — the value of a row is the constant and the sum over all keys
* `Row.coefficientFor_substitute`, `Row.coefficientFor_solveFor`, `Row.coefficientFor_solveForPair`
* `Row.evaluate_substitute`, `Row.evaluate_solveFor`, `Row.evaluate_solveForPair`
-/

namespace Cassowary

/-- Keys are finitely many, so that a sum may run over all of them. -/
noncomputable instance : Fintype Key :=
  Fintype.ofInjective (fun k => (k.kind.code.toFin, k.derived, k.index.toFin)) fun a b h => by
    obtain ⟨kind, derived, index⟩ := a
    obtain ⟨kind', derived', index'⟩ := b
    simp only [Prod.mk.injEq, BitVec.toFin_inj] at h
    obtain ⟨hcode, rfl, rfl⟩ := h
    have hkind := congrArg Kind.ofCode? hcode
    rw [Kind.ofCode?_code, Kind.ofCode?_code, Option.some_inj] at hkind
    rw [hkind]

namespace Tolerant

variable {tolerance : Rat}

instance : Field (Tolerant tolerance) := inferInstanceAs (Field Rat)

instance : LinearOrder (Tolerant tolerance) := inferInstanceAs (LinearOrder Rat)

instance : IsStrictOrderedRing (Tolerant tolerance) := inferInstanceAs (IsStrictOrderedRing Rat)

instance : LawfulBEq (Tolerant tolerance) := inferInstanceAs (LawfulBEq Rat)

/-- Numerals are those of the rationals. -/
instance (n : Nat) : OfNat (Tolerant tolerance) (n + 2) := inferInstanceAs (OfNat Rat (n + 2))

end Tolerant

namespace Scalar

variable {tolerance : Rat}

theorem magnitude_eq_abs (x : Tolerant tolerance) : magnitude x = |x| := by
  unfold magnitude
  split
  · next h => exact (abs_of_neg h).symm
  · next h => exact (abs_of_nonneg (not_lt.mp h)).symm

theorem magnitude_rat (x : Rat) : magnitude x = |x| := magnitude_eq_abs (x : Tolerant 0)

theorem atLeast_rat (low x : Rat) : atLeast low x = max low x := by
  unfold atLeast
  split
  · next h => exact (max_eq_left h.le).symm
  · next h => exact (max_eq_right (not_lt.mp h)).symm

@[simp] theorem negligible_rat (x : Rat) : negligible x = decide (x = 0) := by
  have hnot : ¬ magnitude x < 0 := by
    rw [magnitude_rat]
    exact not_lt.mpr (abs_nonneg x)
  change (decide (magnitude x < 0) || decide (x = 0)) = decide (x = 0)
  simp [hnot]

/-- What does not count as zero is not zero. -/
theorem ne_zero_of_negligible {x : Tolerant tolerance} (hx : negligible x = false) : x ≠ 0 := by
  rintro rfl
  have htrue : negligible (0 : Tolerant tolerance) = true := Bool.or_eq_true_iff.mpr (.inr rfl)
  cases hx.symm.trans htrue

/-- A number other than zero counts as zero if it is closer to zero than the tolerance. -/
theorem negligible_of_ne_zero {x : Tolerant tolerance} (hx : x ≠ 0) :
    negligible x = decide (|x| < Scalar.tolerance) := by
  rw [← magnitude_eq_abs x]
  change (decide (_ < Scalar.tolerance) || decide (x = 0)) = _
  rw [decide_eq_false hx, Bool.or_false]

/-- The number, or zero where it counts as zero. -/
def settled {α : Type} [Scalar α] (x : α) : α := if negligible x then 0 else x

theorem settled_rat (x : Rat) : settled x = x := by
  rw [settled, negligible_rat]
  split
  · next h => exact (of_decide_eq_true h).symm
  · rfl

end Scalar

namespace Row

variable {r other : Row Rat} {k k' basic : Key}

/-- The cells that there are hold something, and the scale can be divided by. -/
structure Proper {α : Type} [Zero α] (r : Row α) : Prop where
  scale_ne_zero : r.scale ≠ 0
  cell_ne_zero : ∀ {k c}, r.cells.get? k = some c → c ≠ 0

section Kept

variable {α : Type} [Scalar α] {r : Row α}

theorem Proper.addConstant (h : r.Proper) (delta : α) : (r.addConstant delta).Proper :=
  ⟨h.scale_ne_zero, h.cell_ne_zero⟩

theorem Proper.remove (h : r.Proper) (k : Key) : (r.remove k).Proper where
  scale_ne_zero := h.scale_ne_zero
  cell_ne_zero {k' c} hc := by
    rw [Row.remove, Table.get?_erase] at hc
    split at hc
    · cases hc
    · exact h.cell_ne_zero hc

end Kept

/-- The terms of a proper row are those with a coefficient other than zero. -/
theorem Proper.contains_iff (h : r.Proper) : r.contains k = true ↔ r.coefficientFor k ≠ 0 := by
  rw [coefficientFor_eq, contains, Table.contains]
  cases hk : r.cells.get? k with
  | none => simp
  | some c => simp [h.scale_ne_zero, h.cell_ne_zero hk]

theorem Proper.contains_eq_false_iff (h : r.Proper) :
    r.contains k = false ↔ r.coefficientFor k = 0 := by
  rw [← Bool.not_eq_true, h.contains_iff, not_not]

/-! ## Values -/

theorem evaluate_eq_sum_terms {tolerance : Rat} (r : Row (Tolerant tolerance))
    (v : Key → Tolerant tolerance) :
    r.evaluate v = r.constant + (r.terms.map fun t => t.coefficient * v t.var).sum := by
  have hfold : ∀ (ts : List (Term Key (Tolerant tolerance))) (x : Tolerant tolerance),
      ts.foldl (fun sum t => sum + t.coefficient * v t.var) x =
        x + (ts.map fun t => t.coefficient * v t.var).sum := by
    intro ts
    induction ts with
    | nil => intro x; exact (add_zero x).symm
    | cons t rest ih =>
      intro x
      rw [List.foldl_cons, ih, List.map_cons, List.sum_cons, add_assoc]
  exact hfold r.terms r.constant

/-- A sum over the entries of a table is a sum over all keys. -/
theorem sum_entries (t : Table Key Rat) (f : Key → Rat → Rat) :
    (t.entries.map fun e => f e.1 e.2).sum = ∑ k, (t.get? k).elim 0 (f k) := by
  obtain ⟨l, hl⟩ := t
  simp only [Table.get?]
  induction l with
  | nil => simp
  | cons e rest ih =>
    obtain ⟨key, c⟩ := e
    obtain ⟨hnot, hrest⟩ := List.nodup_cons.mp hl
    have hlookup : rest.lookup key = none := by
      simp only [List.lookup_eq_none_iff, bne_iff_ne]
      exact fun p hp heq => hnot (List.mem_map.mpr ⟨p, hp, heq.symm⟩)
    have hsplit : ∀ k, (((key, c) :: rest).lookup k).elim 0 (f k) =
        (if k = key then f key c else 0) + (rest.lookup k).elim 0 (f k) := by
      intro k
      by_cases hk : k = key
      · subst hk
        simp [hlookup]
      · simp [List.lookup_cons, beq_eq_false_iff_ne.mpr hk, hk]
    rw [List.map_cons, List.sum_cons, ih hrest, Finset.sum_congr rfl fun k _ => hsplit k,
      Finset.sum_add_distrib, Finset.sum_ite_eq' Finset.univ key, if_pos (Finset.mem_univ _)]

/-- The value of a row is its constant and the sum over all keys. -/
theorem evaluate_eq (r : Row Rat) (v : Key → Rat) :
    r.evaluate v = r.constant + ∑ k, r.coefficientFor k * v k := by
  have hterms : r.evaluate v = r.constant + (r.terms.map fun t => t.coefficient * v t.var).sum :=
    evaluate_eq_sum_terms r v
  rw [hterms, terms, List.map_map]
  refine congrArg _ ((sum_entries r.cells fun k c => c * r.scale * v k).trans ?_)
  refine Finset.sum_congr rfl fun k _ => ?_
  rw [coefficientFor_eq]
  cases r.cells.get? k with
  | none => exact (zero_mul _).symm
  | some c => rfl

/-- The value of a row depends on the keys with a coefficient only. -/
theorem evaluate_congr {v w : Key → Rat} (h : ∀ k, r.coefficientFor k ≠ 0 → v k = w k) :
    r.evaluate v = r.evaluate w := by
  rw [evaluate_eq, evaluate_eq]
  refine congrArg _ (Finset.sum_congr rfl fun k _ => ?_)
  by_cases hk : r.coefficientFor k = 0
  · rw [hk, zero_mul, zero_mul]
  · rw [h k hk]

theorem evaluate_zero (r : Row Rat) : r.evaluate (fun _ => 0) = r.constant := by
  rw [evaluate_eq]
  simp

/-- Along a single key, the value of a row changes by its coefficient. -/
theorem evaluate_update (r : Row Rat) (v : Key → Rat) (k : Key) (x : Rat) :
    r.evaluate (Function.update v k x) = r.evaluate v + r.coefficientFor k * (x - v k) := by
  have hsum : ∀ j, r.coefficientFor j * Function.update v k x j =
      r.coefficientFor j * v j + if j = k then r.coefficientFor k * (x - v k) else 0 := by
    intro j
    by_cases hj : j = k
    · subst hj
      rw [Function.update_self, if_pos rfl]
      ring
    · rw [Function.update_of_ne hj, if_neg hj, add_zero]
  rw [evaluate_eq, evaluate_eq, Finset.sum_congr rfl fun j _ => hsum j, Finset.sum_add_distrib,
    Finset.sum_ite_eq' Finset.univ k, if_pos (Finset.mem_univ _), add_assoc]

/-- A value that is linear in the coefficients and the constant of other rows. -/
theorem evaluate_of_linear {r₁ r₂ : Row Rat} {a : Rat} (v : Key → Rat)
    (hconstant : r.constant = r₁.constant + a * r₂.constant)
    (hcoefficient : ∀ k, r.coefficientFor k = r₁.coefficientFor k + a * r₂.coefficientFor k) :
    r.evaluate v = r₁.evaluate v + a * r₂.evaluate v := by
  rw [evaluate_eq, evaluate_eq, evaluate_eq, hconstant, mul_add, Finset.mul_sum]
  rw [Finset.sum_congr rfl fun k _ => by rw [hcoefficient k, add_mul, mul_assoc],
    Finset.sum_add_distrib]
  ring

/-- A value where one coefficient has changed. -/
theorem evaluate_of_change {r₁ : Row Rat} {x : Rat} (v : Key → Rat)
    (hconstant : r.constant = r₁.constant)
    (hcoefficient : ∀ k', r.coefficientFor k' = if k' = k then x else r₁.coefficientFor k') :
    r.evaluate v = r₁.evaluate v + (x - r₁.coefficientFor k) * v k := by
  have hsum : ∀ j, r.coefficientFor j * v j = r₁.coefficientFor j * v j +
      if j = k then (x - r₁.coefficientFor k) * v k else 0 := by
    intro j
    rw [hcoefficient]
    split
    · next heq =>
      rw [heq]
      ring
    · rw [add_zero]
  rw [evaluate_eq, evaluate_eq, hconstant, Finset.sum_congr rfl fun j _ => hsum j,
    Finset.sum_add_distrib, Finset.sum_ite_eq' Finset.univ k, if_pos (Finset.mem_univ _), add_assoc]

/-! ## Sums -/

@[simp] theorem coefficientFor_ofConstant (c : Rat) (k : Key) :
    (ofConstant c).coefficientFor k = 0 := rfl

theorem proper_ofConstant (c : Rat) : (ofConstant c).Proper where
  scale_ne_zero := one_ne_zero
  cell_ne_zero h := by simp [ofConstant] at h

theorem evaluate_addConstant (r : Row Rat) (delta : Rat) (v : Key → Rat) :
    (r.addConstant delta).evaluate v = r.evaluate v + delta := by
  rw [evaluate_eq, evaluate_eq, Finset.sum_congr rfl fun k _ => by rw [coefficientFor_addConstant],
    addConstant]
  ring

/-- The coefficient that a term is added to comes to the sum, or to zero if the sum counts as
zero. -/
theorem coefficientFor_insert_settled {tolerance : Rat} {r : Row (Tolerant tolerance)}
    (hs : r.scale ≠ 0) (t : Term Key (Tolerant tolerance)) (k : Key) :
    (r.insert t).coefficientFor k =
      if k = t.var then Scalar.settled (r.coefficientFor k + t.coefficient)
      else r.coefficientFor k := by
  split
  · next hk =>
    subst hk
    rw [coefficientFor_eq, coefficientFor_eq, insert, Table.get?_alter_self]
    cases r.cells.get? t.var with
    | none =>
      simp only [Option.elim_none, zero_add]
      by_cases hzero : Scalar.negligible t.coefficient = true
      · rw [if_pos hzero, Scalar.settled, if_pos hzero, Option.elim_none]
      · rw [if_neg hzero, Scalar.settled, if_neg hzero, Option.elim_some, div_mul_cancel₀ _ hs]
    | some c =>
      have hmerged : (c + t.coefficient / r.scale) * r.scale = c * r.scale + t.coefficient := by
        rw [add_mul, div_mul_cancel₀ _ hs]
      simp only [Option.elim_some, hmerged]
      by_cases hzero : Scalar.negligible (c * r.scale + t.coefficient) = true
      · rw [if_pos hzero, Scalar.settled, if_pos hzero, Option.elim_none]
      · rw [if_neg hzero, Scalar.settled, if_neg hzero, Option.elim_some, hmerged]
  · next hk => exact coefficientFor_insert_of_ne t hk

theorem coefficientFor_insert (h : r.Proper) (t : Term Key Rat) (k : Key) :
    (r.insert t).coefficientFor k =
      r.coefficientFor k + if k = t.var then t.coefficient else 0 := by
  have hsettled : (r.insert t).coefficientFor k = if k = t.var then
      Scalar.settled (r.coefficientFor k + t.coefficient) else r.coefficientFor k :=
    coefficientFor_insert_settled h.scale_ne_zero t k
  rw [hsettled]
  split
  · exact Scalar.settled_rat _
  · exact (add_zero _).symm

/-- A term that comes out negligible is taken away, so no cell is zero. -/
theorem Proper.insert_tolerant {tolerance : Rat} {r : Row (Tolerant tolerance)} (h : r.Proper)
    (t : Term Key (Tolerant tolerance)) : (r.insert t).Proper := by
  refine ⟨h.scale_ne_zero, fun {k c} hc => ?_⟩
  rw [Row.insert] at hc
  by_cases hk : k = t.var
  · subst hk
    rw [Table.get?_alter_self] at hc
    cases hold : r.cells.get? t.var with
    | none =>
      simp only [hold] at hc
      split at hc
      · cases hc
      · next hne =>
        cases hc
        exact div_ne_zero (Scalar.ne_zero_of_negligible (Bool.eq_false_iff.mpr hne))
          h.scale_ne_zero
    | some c' =>
      simp only [hold] at hc
      split at hc
      · cases hc
      · next hne =>
        cases hc
        exact left_ne_zero_of_mul (Scalar.ne_zero_of_negligible (Bool.eq_false_iff.mpr hne))
  · rw [Table.get?_alter_of_ne _ _ hk] at hc
    exact h.cell_ne_zero hc

theorem Proper.insert (h : r.Proper) (t : Term Key Rat) : (r.insert t).Proper :=
  h.insert_tolerant t

theorem Proper.insertAll (h : r.Proper) (ts : List (Term Key Rat)) : (r.insertAll ts).Proper := by
  induction ts generalizing r with
  | nil => exact h
  | cons t rest ih => exact ih (h.insert t)

/-- Adding terms adds, to the coefficient of a key, the coefficients of its terms. -/
theorem coefficientFor_insertAll (h : r.Proper) (ts : List (Term Key Rat)) (k : Key) :
    (r.insertAll ts).coefficientFor k =
      r.coefficientFor k + (ts.map fun t => if k = t.var then t.coefficient else 0).sum := by
  induction ts generalizing r with
  | nil => exact (add_zero _).symm
  | cons t rest ih =>
    rw [insertAll_cons, ih (h.insert t), coefficientFor_insert h, List.map_cons, List.sum_cons,
      add_assoc]

theorem evaluate_insert (h : r.Proper) (t : Term Key Rat) (v : Key → Rat) :
    (r.insert t).evaluate v = r.evaluate v + t.coefficient * v t.var := by
  have hchange := evaluate_of_change (x := r.coefficientFor t.var + t.coefficient) (k := t.var) v
    (constant_insert r t) fun k' => by
      rw [coefficientFor_insert h]
      split
      · next heq => rw [heq]
      · rw [add_zero]
  rw [hchange, add_sub_cancel_left]

theorem evaluate_insertAll (h : r.Proper) (ts : List (Term Key Rat)) (v : Key → Rat) :
    (r.insertAll ts).evaluate v =
      r.evaluate v + (ts.map fun t => t.coefficient * v t.var).sum := by
  induction ts generalizing r with
  | nil => exact (add_zero _).symm
  | cons t rest ih =>
    rw [insertAll_cons, ih (h.insert t), evaluate_insert h, List.map_cons, List.sum_cons, add_assoc]

/-- The coefficient of a key as a sum over the terms. -/
theorem coefficientFor_eq_sum_terms (r : Row Rat) (k : Key) :
    r.coefficientFor k = (r.terms.map fun t => if k = t.var then t.coefficient else 0).sum := by
  rw [terms, List.map_map]
  refine Eq.trans ?_ (sum_entries r.cells fun k' c => if k = k' then c * r.scale else 0).symm
  have hsum : ∀ k', (r.cells.get? k').elim 0 (fun c => if k = k' then c * r.scale else 0) =
      if k = k' then r.coefficientFor k else 0 := by
    intro k'
    split
    · next heq => rw [coefficientFor_eq, heq]
    · cases r.cells.get? k' <;> rfl
  rw [Finset.sum_congr rfl fun k' _ => hsum k', Finset.sum_ite_eq Finset.univ k,
    if_pos (Finset.mem_univ _)]

theorem Proper.insertRow (h : r.Proper) (other : Row Rat) (factor : Rat) :
    (r.insertRow other factor).Proper :=
  (h.addConstant _).insertAll _

@[simp] theorem constant_insertRow (r other : Row Rat) (factor : Rat) :
    (r.insertRow other factor).constant = r.constant + factor * other.constant := by
  rw [insertRow, constant_insertAll, mul_comm]
  rfl

theorem coefficientFor_insertRow (h : r.Proper) (other : Row Rat) (factor : Rat) (k : Key) :
    (r.insertRow other factor).coefficientFor k =
      r.coefficientFor k + factor * other.coefficientFor k := by
  rw [insertRow, coefficientFor_insertAll (h.addConstant _), coefficientFor_addConstant,
    coefficientFor_eq_sum_terms other, List.map_map, ← List.sum_map_mul_left]
  refine congrArg (r.coefficientFor k + ·) (congrArg List.sum (List.map_congr_left fun t _ => ?_))
  simp only [Function.comp, Term.scaled, Term.withCoefficient, mul_ite, mul_zero, mul_comm]

theorem evaluate_insertRow (h : r.Proper) (other : Row Rat) (factor : Rat) (v : Key → Rat) :
    (r.insertRow other factor).evaluate v = r.evaluate v + factor * other.evaluate v :=
  evaluate_of_linear v (constant_insertRow r other factor) (coefficientFor_insertRow h other factor)

theorem evaluate_remove (r : Row Rat) (k : Key) (v : Key → Rat) :
    (r.remove k).evaluate v = r.evaluate v - r.coefficientFor k * v k := by
  rw [evaluate_of_change v (constant_remove r k) (coefficientFor_remove r k), zero_sub, neg_mul,
    ← sub_eq_add_neg]

/-! ## Replacing a key -/

/-- Replacing a key takes its term away and adds a multiple of the replacement, whether or not the
key has a term. -/
theorem substitute_unit_eq (r : Row Rat) (k : Key) (other : Row Rat) :
    r.substitute (.unit k) other = r ∧ r.contains k = false ∨
      r.substitute (.unit k) other = (r.remove k).insertRow other (r.coefficientFor k) := by
  cases hr : r.contains k with
  | false => exact .inl ⟨substitute_of_not_contains (t := .unit k) hr, rfl⟩
  | true =>
    refine .inr ((substitute_of_contains (t := .unit k) hr).trans ?_)
    exact congrArg _ (div_one _)

theorem Proper.substitute (h : r.Proper) (k : Key) (other : Row Rat) :
    (r.substitute (.unit k) other).Proper := by
  rcases substitute_unit_eq r k other with ⟨heq, -⟩ | heq
  · rwa [heq]
  · rw [heq]
    exact (h.remove k).insertRow _ _

theorem constant_substitute (r : Row Rat) (k : Key) (other : Row Rat) :
    (r.substitute (.unit k) other).constant =
      r.constant + r.coefficientFor k * other.constant := by
  rcases substitute_unit_eq r k other with ⟨heq, hk⟩ | heq
  · rw [heq, coefficientFor_of_not_contains hk, zero_mul, add_zero]
  · rw [heq, constant_insertRow, constant_remove]

theorem coefficientFor_substitute (h : r.Proper) (k : Key) (other : Row Rat) (k' : Key) :
    (r.substitute (.unit k) other).coefficientFor k' =
      (if k' = k then 0 else r.coefficientFor k') +
        r.coefficientFor k * other.coefficientFor k' := by
  rcases substitute_unit_eq r k other with ⟨heq, hk⟩ | heq
  · rw [heq, h.contains_eq_false_iff.mp hk, zero_mul, add_zero]
    split
    · next hkk => rw [hkk, h.contains_eq_false_iff.mp hk]
    · rfl
  · rw [heq, coefficientFor_insertRow (h.remove k), coefficientFor_remove]

/-- Replacing a key by a row that it is equal to keeps the value. -/
theorem evaluate_substitute (h : r.Proper) (k : Key) (other : Row Rat) (v : Key → Rat) :
    (r.substitute (.unit k) other).evaluate v =
      r.evaluate v + r.coefficientFor k * (other.evaluate v - v k) := by
  rcases substitute_unit_eq r k other with ⟨heq, hk⟩ | heq
  · rw [heq, h.contains_eq_false_iff.mp hk, zero_mul, add_zero]
  · rw [heq, evaluate_insertRow (h.remove k), evaluate_remove]
    ring

/-! ## Multiples -/

theorem Proper.reverseSign (h : r.Proper) : r.reverseSign.Proper :=
  ⟨neg_ne_zero.mpr h.scale_ne_zero, h.cell_ne_zero⟩

@[simp] theorem coefficientFor_reverseSign (r : Row Rat) (k : Key) :
    r.reverseSign.coefficientFor k = -r.coefficientFor k := by
  rw [coefficientFor_eq, coefficientFor_eq, reverseSign]
  cases r.cells.get? k with
  | none => exact neg_zero.symm
  | some c => exact mul_neg c r.scale

theorem evaluate_reverseSign (r : Row Rat) (v : Key → Rat) :
    r.reverseSign.evaluate v = -r.evaluate v := by
  have hsum : ∀ k, r.reverseSign.coefficientFor k * v k = -(r.coefficientFor k * v k) :=
    fun k => by rw [coefficientFor_reverseSign, neg_mul]
  rw [evaluate_eq, evaluate_eq, Finset.sum_congr rfl fun k _ => hsum k, Finset.sum_neg_distrib,
    neg_add]
  rfl

/-- The constant of a normalized row is not negative. -/
theorem constant_normalize_nonneg (r : Row Rat) : 0 ≤ r.normalize.constant := by
  rw [normalize]
  split
  · next h =>
    have hneg : r.constant < 0 := of_decide_eq_true h
    exact (neg_pos.mpr hneg).le
  · next h => exact not_lt.mp fun hneg => h (decide_eq_true hneg)

/-- A row whose constant is not negative is normalized. -/
theorem normalize_of_nonneg {r : Row Rat} (h : 0 ≤ r.constant) : r.normalize = r :=
  if_neg fun hneg => absurd (of_decide_eq_true hneg) (not_lt.mpr h)

theorem Proper.normalize (h : r.Proper) : r.normalize.Proper := by
  rcases normalize_eq_or r with heq | heq <;> rw [heq]
  · exact h
  · exact h.reverseSign

@[simp] theorem coefficientFor_foldScale (r : Row Rat) (k : Key) :
    r.foldScale.coefficientFor k = r.coefficientFor k := by
  simp only [foldScale]
  split
  · rfl
  · rw [coefficientFor_eq, coefficientFor_eq, Table.get?_mapValues]
    cases r.cells.get? k with
    | none => rfl
    | some c => exact mul_one _

theorem Proper.foldScale (h : r.Proper) : r.foldScale.Proper := by
  simp only [Row.foldScale]
  split
  · exact h
  · refine ⟨one_ne_zero, fun {k c} hc => ?_⟩
    rw [Table.get?_mapValues] at hc
    obtain ⟨c', hc', rfl⟩ := Option.map_eq_some_iff.mp hc
    exact mul_ne_zero (h.cell_ne_zero hc') h.scale_ne_zero

/-! ## Solving -/

theorem Proper.solveFor (h : r.Proper) (hk : r.coefficientFor k ≠ 0) : (r.solveFor k).Proper := by
  rw [solveFor_eq hk]
  exact Proper.foldScale ⟨mul_ne_zero h.scale_ne_zero (div_ne_zero (by norm_num) hk),
    (h.remove k).cell_ne_zero⟩

theorem constant_solveFor (hk : r.coefficientFor k ≠ 0) :
    (r.solveFor k).constant = -r.constant / r.coefficientFor k := by
  rw [solveFor_eq hk, constant_foldScale]
  dsimp only
  ring

theorem coefficientFor_solveFor (hk : r.coefficientFor k ≠ 0) (k' : Key) :
    (r.solveFor k).coefficientFor k' =
      if k' = k then 0 else -r.coefficientFor k' / r.coefficientFor k := by
  have hremove := coefficientFor_remove r k k'
  rw [coefficientFor_eq] at hremove
  rw [solveFor_eq hk, coefficientFor_foldScale, coefficientFor_eq]
  cases hc : (r.remove k).cells.get? k' with
  | none =>
    rw [hc, Option.elim_none] at hremove
    split
    · rfl
    · next hne =>
      rw [if_neg hne] at hremove
      rw [← hremove, neg_zero, zero_div]
      rfl
  | some c =>
    have hcell : c * r.scale = if k' = k then 0 else r.coefficientFor k' := by
      rw [hc] at hremove
      exact hremove
    rw [Option.elim_some, ← mul_assoc, hcell]
    split
    · exact zero_mul _
    · ring

/-- A solved row misses its key by the value of the equation, divided by the coefficient. -/
theorem evaluate_solveFor (hk : r.coefficientFor k ≠ 0) (v : Key → Rat) :
    (r.solveFor k).evaluate v = v k - r.evaluate v / r.coefficientFor k := by
  have hlinear : (r.solveFor k).evaluate v =
      (ofConstant 0).evaluate v + -1 / r.coefficientFor k * (r.remove k).evaluate v := by
    refine evaluate_of_linear v ?_ fun k' => ?_
    · rw [constant_solveFor hk, constant_remove]
      change _ = 0 + _
      ring
    · rw [coefficientFor_solveFor hk, coefficientFor_remove, coefficientFor_ofConstant]
      split <;> ring
  have hzero : (ofConstant (0 : Rat)).evaluate v = 0 := rfl
  rw [hlinear, evaluate_remove, hzero]
  field_simp
  ring

section SolveForPair

variable (h : r.Proper) (hk : r.coefficientFor k ≠ 0) (hbasic : r.coefficientFor basic = 0)
include hk hbasic

theorem coefficientFor_equated_self :
    (r.equated basic k).coefficientFor k = r.coefficientFor k := by
  rw [equated_eq hk]
  refine coefficientFor_insert_of_ne ⟨basic, -1⟩ fun heq => hk ?_
  rwa [heq]

theorem constant_solveForPair :
    (r.solveForPair basic k).constant = -r.constant / r.coefficientFor k := by
  have hself := coefficientFor_equated_self hk hbasic
  rw [Row.solveForPair, constant_solveFor (by rwa [hself]), hself, equated_eq hk,
    constant_insert]

include h

theorem coefficientFor_equated (k' : Key) :
    (r.equated basic k).coefficientFor k' = if k' = basic then -1 else r.coefficientFor k' := by
  rw [equated_eq hk, coefficientFor_insert h]
  by_cases heq : k' = basic
  · simp [heq, hbasic]
  · rw [if_neg heq, if_neg heq, add_zero]

theorem Proper.solveForPair : (r.solveForPair basic k).Proper := by
  refine Proper.solveFor ?_ ?_
  · rw [equated_eq hk]
    exact h.insert _
  · rwa [coefficientFor_equated_self hk hbasic]

/-- Solving for another key divides by its coefficient; the old basic key gets the reciprocal. -/
theorem coefficientFor_solveForPair (k' : Key) :
    (r.solveForPair basic k).coefficientFor k' =
      if k' = k then 0
      else (if k' = basic then 1 else -r.coefficientFor k') / r.coefficientFor k := by
  have hself := coefficientFor_equated_self hk hbasic
  rw [Row.solveForPair, coefficientFor_solveFor (by rwa [hself]), hself,
    coefficientFor_equated h hk hbasic]
  split
  · rfl
  · split
    · rw [neg_neg]
    · rfl

/-- A row that was solved for another key misses it by as much as the row missed its own, divided by
the coefficient. -/
theorem evaluate_solveForPair (v : Key → Rat) :
    (r.solveForPair basic k).evaluate v = v k - (r.evaluate v - v basic) / r.coefficientFor k := by
  have hself := coefficientFor_equated_self hk hbasic
  rw [Row.solveForPair, evaluate_solveFor (by rwa [hself]), hself, equated_eq hk,
    evaluate_insert h]
  ring

end SolveForPair

end Row

end Cassowary
