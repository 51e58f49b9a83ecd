import Mathlib.Algebra.Order.Ring.Abs
import Cassowary.Proofs.Row

/-!
# Solving and solving back

An equation is solved for one of its keys by multiplying the scale and the constant, and a pivot
inserts the key that leaves before it does so. Whether the scale is folded into the cells on the way
depends on the sizes of the coefficients, and it can be folded in one direction only. None of this
shows: the solved row says what the equation says, and to pivot back gives every coefficient again.

The tolerance has no part in it. The only coefficient that a pivot inserts is minus one.

## Main results

* `Row.insert_eq_of_not_contains`, `Row.solveForPair?_eq` — a pivot is the same for every tolerance
  up to one
* `Row.constant_solveForPair_solveForPair`, `Row.coefficientFor_solveForPair_solveForPair` — what a
  pivot and the pivot back come to
* `Row.solve_exchanges` — solving keeps what an equation says, and a pivot can be undone
-/

namespace Cassowary

namespace Row

variable {r : Row Rat} {k basic : Key}

/-! ## The tolerance is not met -/

section Tolerance

variable {tolerance : Rat} {r : Row (Tolerant tolerance)}

/-- A new term that is not below the tolerance is inserted as in exact arithmetic. -/
theorem insert_eq_of_not_contains {t : Term Key (Tolerant tolerance)}
    (hnot : r.contains t.var = false) (ht : t.coefficient ≠ 0)
    (hsize : Scalar.tolerance ≤ |t.coefficient|) : r.insert t = insert (α := Rat) r t := by
  have hnone : r.cells.get? t.var = none := by
    rwa [contains, Table.contains, Option.isSome_eq_false_iff, Option.isNone_iff_eq_none] at hnot
  have hexact : ∀ {x : Rat}, x ≠ 0 → Scalar.negligible x = false := fun hx => by simpa using hx
  have hsame : Scalar.negligible t.coefficient = Scalar.negligible (α := Rat) t.coefficient := by
    rw [Scalar.negligible_of_ne_zero ht, decide_eq_false (not_lt.mpr hsize)]
    exact (hexact ht).symm
  refine congrArg (fun cells => { r with cells := cells }) (Table.alter_congr ?_)
  rw [hnone]
  simp only [hsame]
  rfl

/-- A pivot that brings in a new key goes as in exact arithmetic. -/
theorem solveForPair?_eq (htolerance : tolerance ≤ 1) (hbasic : r.contains basic = false) (k : Key) :
    r.solveForPair? basic k = solveForPair? (α := Rat) r basic k := by
  have hsize : Scalar.tolerance ≤ |(-1 : Tolerant tolerance)| := by
    rwa [abs_neg, abs_one]
  have hinsert : r.insert ⟨basic, -1⟩ = insert (α := Rat) r ⟨basic, -1⟩ :=
    insert_eq_of_not_contains hbasic (neg_ne_zero.mpr one_ne_zero) hsize
  have hequated : r.equated basic k = equated (α := Rat) r basic k := by
    by_cases hk : r.contains k = true
    · exact (if_pos hk).trans (hinsert.trans (if_pos hk).symm)
    · exact (if_neg hk).trans (if_neg hk).symm
  exact congrArg (fun r' : Row Rat => r'.solveFor? k) hequated

end Tolerance

/-! ## What the solved row says -/

theorem solveFor?_eq_some {α : Type} [Scalar α] {r : Row α} (hk : r.contains k = true) :
    r.solveFor? k = some (r.solveFor k) := by
  obtain ⟨r', hr'⟩ := Option.isSome_iff_exists.mp ((isSome_solveFor? r k).trans hk)
  rw [solveFor, hr', Option.getD_some]

/-- An equation holds just where its key has the value of the solved row. -/
theorem evaluate_solveFor_iff (hk : r.coefficientFor k ≠ 0) (v : Key → Rat) :
    r.evaluate v = 0 ↔ v k = (r.solveFor k).evaluate v := by
  rw [evaluate_solveFor hk, eq_comm (a := v k), sub_eq_self, div_eq_zero_iff, or_iff_left hk]

section Back

variable (h : r.Proper) (hk : r.coefficientFor k ≠ 0) (hbasic : r.coefficientFor basic = 0)
include hk hbasic

theorem solveForPair?_eq_some : r.solveForPair? basic k = some (r.solveForPair basic k) := by
  refine solveFor?_eq_some (contains_of_coefficientFor_ne_zero ?_)
  rwa [coefficientFor_equated_self hk hbasic]

include h

/-- The equation of one key holds just where that of the other holds. -/
theorem evaluate_solveForPair_iff (v : Key → Rat) :
    v basic = r.evaluate v ↔ v k = (r.solveForPair basic k).evaluate v := by
  rw [evaluate_solveForPair h hk hbasic, eq_comm (a := v k), sub_eq_self, div_eq_zero_iff,
    or_iff_left hk, sub_eq_zero, eq_comm]

/-- After a pivot the key that left has the reciprocal coefficient. -/
theorem coefficientFor_solveForPair_basic :
    (r.solveForPair basic k).coefficientFor basic = 1 / r.coefficientFor k := by
  have hne : basic ≠ k := fun heq => hk (heq ▸ hbasic)
  rw [coefficientFor_solveForPair h hk hbasic, if_neg hne, if_pos rfl]

theorem coefficientFor_solveForPair_basic_ne_zero :
    (r.solveForPair basic k).coefficientFor basic ≠ 0 := by
  rw [coefficientFor_solveForPair_basic h hk hbasic]
  exact one_div_ne_zero hk

theorem coefficientFor_solveForPair_self : (r.solveForPair basic k).coefficientFor k = 0 := by
  rw [coefficientFor_solveForPair h hk hbasic, if_pos rfl]

theorem constant_solveForPair_solveForPair :
    ((r.solveForPair basic k).solveForPair k basic).constant = r.constant := by
  rw [constant_solveForPair (coefficientFor_solveForPair_basic_ne_zero h hk hbasic)
    (coefficientFor_solveForPair_self h hk hbasic), constant_solveForPair hk hbasic,
    coefficientFor_solveForPair_basic h hk hbasic]
  field_simp

theorem coefficientFor_solveForPair_solveForPair (k' : Key) :
    ((r.solveForPair basic k).solveForPair k basic).coefficientFor k' = r.coefficientFor k' := by
  rw [coefficientFor_solveForPair (h.solveForPair hk hbasic)
    (coefficientFor_solveForPair_basic_ne_zero h hk hbasic)
    (coefficientFor_solveForPair_self h hk hbasic), coefficientFor_solveForPair_basic h hk hbasic,
    coefficientFor_solveForPair h hk hbasic]
  split
  · next heq => rw [heq, hbasic]
  · split
    · next heq => rw [heq, one_div_one_div]
    · field_simp

end Back

/-- In exact arithmetic, a pivot and the pivot back. -/
theorem exists_solveForPair? (h : r.Proper) (hbasic : r.contains basic = false)
    (hk : r.contains k = true) :
    ∃ r', r.solveForPair? basic k = some r' ∧ r'.Proper ∧ r'.contains k = false ∧
      (∀ v, v basic = r.evaluate v ↔ v k = r'.evaluate v) ∧
      ∃ r'', r'.solveForPair? k basic = some r'' ∧ r''.constant = r.constant ∧
        ∀ k', r''.coefficientFor k' = r.coefficientFor k' := by
  have hzero := h.contains_eq_false_iff.mp hbasic
  have hne := h.contains_iff.mp hk
  have hproper := h.solveForPair hne hzero
  have hself := coefficientFor_solveForPair_self h hne hzero
  exact ⟨r.solveForPair basic k, solveForPair?_eq_some hne hzero, hproper,
    hproper.contains_eq_false_iff.mpr hself, evaluate_solveForPair_iff h hne hzero,
    (r.solveForPair basic k).solveForPair k basic,
    solveForPair?_eq_some (coefficientFor_solveForPair_basic_ne_zero h hne hzero) hself,
    constant_solveForPair_solveForPair h hne hzero,
    coefficientFor_solveForPair_solveForPair h hne hzero⟩

/-- Solving an equation for a key that it has keeps what it says, and the key is gone from it. A
pivot keeps what the row says, and the pivot back gives the constant and every coefficient again. -/
theorem solve_exchanges {tolerance : Rat} (htolerance : tolerance ≤ 1)
    {r : Row (Tolerant tolerance)} (h : r.Proper) :
    (∀ k, r.contains k = true → ∃ r', r.solveFor? k = some r' ∧ r'.Proper ∧
      r'.contains k = false ∧ ∀ v, r.evaluate v = 0 ↔ v k = r'.evaluate v) ∧
    ∀ basic k, r.contains basic = false → r.contains k = true →
      ∃ r', r.solveForPair? basic k = some r' ∧ r'.Proper ∧
        (∀ v, v basic = r.evaluate v ↔ v k = r'.evaluate v) ∧
        ∃ r'', r'.solveForPair? k basic = some r'' ∧ r''.constant = r.constant ∧
          ∀ k', r''.coefficientFor k' = r.coefficientFor k' := by
  constructor
  · intro k hk
    have hne : r.coefficientFor k ≠ 0 := h.contains_iff.mp hk
    exact ⟨r.solveFor k, solveFor?_eq_some hk, h.solveFor hne, not_contains_solveFor r k,
      evaluate_solveFor_iff hne⟩
  · intro basic k hbasic hk
    obtain ⟨r', hr', hproper, hgone, hsame, r'', hr'', hback⟩ := exists_solveForPair? h hbasic hk
    -- The pivot back inserts the key that was solved for, which is gone
    exact ⟨r', (solveForPair?_eq htolerance hbasic k).trans hr', hproper, hsame, r'',
      (solveForPair?_eq htolerance hgone basic).trans hr'', hback⟩

/-- The row `3 + 10⁻⁴ * v0 + v1`, stored under a scale of a thousand. -/
def steep : Row (Tolerant (1 / 10 ^ 8)) where
  cells := .ofList [(.ofIndex .external false 0, 1 / 10 ^ 7), (.ofIndex .external false 1, 1 / 10 ^ 3)]
  scale := 10 ^ 3
  constant := 3

/-- From `s0 = 3 + 10⁻⁴ * v0 + v1` a pivot folds the scale, and the pivot back does not. -/
theorem solve_exchanges_steep :
    steep.Proper ∧
    (∃ r', steep.solveFor? (.ofIndex .external false 0) = some r' ∧ r'.Proper ∧
      r'.contains (.ofIndex .external false 0) = false ∧
      ∀ v, steep.evaluate v = 0 ↔ v (.ofIndex .external false 0) = r'.evaluate v) ∧
    ∃ r', steep.solveForPair? (.ofIndex .slack false 0) (.ofIndex .external false 0) = some r' ∧
      r'.scale = 1 ∧
      (∀ v, v (.ofIndex .slack false 0) = steep.evaluate v ↔
        v (.ofIndex .external false 0) = r'.evaluate v) ∧
      ∃ r'', r'.solveForPair? (.ofIndex .external false 0) (.ofIndex .slack false 0) = some r'' ∧
        r''.scale = -1 / 10 ^ 4 ∧ r''.constant = steep.constant ∧
        ∀ k', r''.coefficientFor k' = steep.coefficientFor k' := by
  have hcells : ∀ e ∈ steep.cells.entries, e.2 ≠ 0 := by decide +kernel
  have hproper : steep.Proper :=
    ⟨by decide +kernel, Table.forall_get?_iff (P := fun _ c => c ≠ 0).mpr hcells _ _⟩
  have hexchanges := solve_exchanges (by norm_num) hproper
  obtain ⟨r', hr', hrow, hsame, r'', hr'', hconstant, hcoefficient⟩ := hexchanges.2
    (.ofIndex .slack false 0) (.ofIndex .external false 0) (by decide +kernel) (by decide +kernel)
  have hthere : (steep.solveForPair? (.ofIndex .slack false 0) (.ofIndex .external false 0)).map
      (·.scale) = some 1 := by decide +kernel
  have hback : ((steep.solveForPair? (.ofIndex .slack false 0) (.ofIndex .external false 0)).bind
      (·.solveForPair? (.ofIndex .external false 0) (.ofIndex .slack false 0))).map (·.scale) =
        some (-1 / 10 ^ 4) := by decide +kernel
  rw [hr', Option.map_some, Option.some_inj] at hthere
  rw [hr', Option.bind_some, hr'', Option.map_some, Option.some_inj] at hback
  exact ⟨hproper, hexchanges.1 _ (by decide +kernel), r', hr', hthere, hsame, r'', hr'', hback,
    hconstant, hcoefficient⟩

end Row

end Cassowary
