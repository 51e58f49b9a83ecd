import Mathlib.Algebra.Order.BigOperators.Group.Finset
import Mathlib.Algebra.Order.Field.Basic
import Cassowary.Proofs.Representation

/-!
# Signs of constants and coefficients

In exact arithmetic, a tableau is feasible if no constant of a symbol is negative, and optimal if no
coefficient of its objective is, among those of variables that may enter the basis. A pivot by the
primal rule keeps the first, a pivot by the dual rule the second. For the second it does not matter
if small coefficients count as zero: what is left out is not negative.

Where a rule finds a variable or a row and no pivot, there is a certificate: the objective falls
below every bound, or no assignment of admissible values meets the row.

## Main definitions

* `Assignment.Nonnegative`, `Assignment.Admissible` — values that symbols may have
* `Tableau.Feasible`, `Row.Minimal` — the signs of constants and of coefficients
* `Tableau.Idle`, `Tableau.DummiesIdle` — keys that are zero, such as the markers of required
  equalities
* `Tableau.Measures` — what an objective is the value of

## Main results

* `Row.coefficientFor_substitute_nonneg` — signs where small coefficients count as zero
* `Tableau.Feasible.pivot`, `Tableau.minimal_dual_pivot` — what the rules keep
* `Tableau.not_bounded`, `Row.evaluate_le_constant` — certificates
-/

namespace Cassowary

/-! ## Values that symbols may have -/

namespace Assignment

/-- No symbol is negative. -/
def Nonnegative (v : Assignment Rat) : Prop := ∀ k, k.unrestricted = false → 0 ≤ v k

/-- No symbol is negative, and those that never enter the basis are zero. -/
structure Admissible (v : Assignment Rat) : Prop where
  nonnegative : v.Nonnegative
  eq_zero : ∀ k, k.unrestricted = false → k.pivotable = false → v k = 0

end Assignment

/-- The values at non-negative members do not fall below some bound. -/
def Bounded (S : Assignment Rat → Prop) (value : Assignment Rat → Rat) : Prop :=
  ∃ bound, ∀ v, S v → v.Nonnegative → bound ≤ value v

namespace Key

variable {k : Key}

theorem unrestricted_of_pivotable (h : k.pivotable = true) : k.unrestricted = false := by
  obtain ⟨kind, _, _⟩ := k
  cases kind <;> first | rfl | cases h

theorem dummy_of_pivotable (h : k.pivotable = true) : k.dummy = false := by
  obtain ⟨kind, _, _⟩ := k
  cases kind <;> first | rfl | cases h

theorem unrestricted_of_dummy (h : k.dummy = true) : k.unrestricted = false := by
  obtain ⟨kind, _, _⟩ := k
  cases kind <;> first | rfl | cases h

end Key

namespace Row

variable {row : Row Rat} {v : Assignment Rat}

/-- No variable that may enter the basis makes the row smaller. -/
def Minimal (row : Row Rat) : Prop := ∀ k, k.pivotable = true → 0 ≤ row.coefficientFor k

/-- A minimal row without layout variables is smallest where all symbols are zero. -/
theorem Minimal.constant_le (h : row.Minimal)
    (hfree : ∀ k, k.unrestricted = true → row.coefficientFor k = 0) (hv : v.Admissible) :
    row.constant ≤ row.evaluate v := by
  have hsum : 0 ≤ ∑ k, row.coefficientFor k * v k := by
    refine Finset.sum_nonneg fun k _ => ?_
    by_cases hk : k.unrestricted = true
    · rw [hfree k hk, zero_mul]
    · rw [Bool.not_eq_true] at hk
      by_cases hpivotable : k.pivotable = true
      · exact mul_nonneg (h k hpivotable) (hv.nonnegative k hk)
      · rw [hv.eq_zero k hk (Bool.not_eq_true _ ▸ hpivotable), mul_zero]
  rw [evaluate_eq]
  linarith

/-- Where no variable that may enter makes the row larger, it is largest where all symbols are
zero. -/
theorem evaluate_le_constant (h : ∀ k, k.pivotable = true → row.coefficientFor k ≤ 0)
    (hfree : ∀ k, k.unrestricted = true → row.coefficientFor k = 0) (hv : v.Admissible) :
    row.evaluate v ≤ row.constant := by
  have hminimal : row.reverseSign.Minimal := fun k hk => by
    rw [coefficientFor_reverseSign]
    exact neg_nonneg.mpr (h k hk)
  have hle := hminimal.constant_le (fun k hk => by
    rw [coefficientFor_reverseSign, hfree k hk, neg_zero]) hv
  rw [evaluate_reverseSign] at hle
  exact neg_le_neg_iff.mp hle

/-! ## Coefficients with a tolerance -/

section Tolerance

variable {tolerance : Rat} {r other : Row (Tolerant tolerance)} {k k' basic : Key}

/-- A term adds its coefficient, unless the sum counts as zero and nothing is left. -/
theorem coefficientFor_insert_or (r : Row (Tolerant tolerance)) (t : Term Key (Tolerant tolerance)) :
    (r.insert t).coefficientFor t.var = 0 ∨
      (r.insert t).coefficientFor t.var = r.coefficientFor t.var + t.coefficient := by
  rw [coefficientFor_eq, coefficientFor_eq, insert, Table.get?_alter_self]
  by_cases hscale : r.scale = 0
  · have hzero : ∀ cell : Option (Tolerant tolerance),
        cell.elim 0 (· * (0 : Tolerant tolerance)) = 0 := by
      rintro (_ | c)
      · rfl
      · exact mul_zero c
    rw [hscale]
    exact .inl (hzero _)
  · cases r.cells.get? t.var with
    | none =>
      dsimp only
      split
      · exact .inl rfl
      · exact .inr ((div_mul_cancel₀ _ hscale).trans (zero_add _).symm)
    | some c =>
      dsimp only
      split
      · exact .inl rfl
      · refine .inr ?_
        change (c + t.coefficient / r.scale) * r.scale = c * r.scale + t.coefficient
        rw [add_mul, div_mul_cancel₀ _ hscale]

/-- Terms with distinct keys leave a coefficient non-negative if none of the sums is negative. -/
theorem coefficientFor_insertAll_nonneg {ts : List (Term Key (Tolerant tolerance))}
    (hnodup : (ts.map (·.var)).Nodup) (hr : 0 ≤ r.coefficientFor k)
    (hts : ∀ t ∈ ts, t.var = k → 0 ≤ r.coefficientFor k + t.coefficient) :
    0 ≤ (r.insertAll ts).coefficientFor k := by
  induction ts generalizing r with
  | nil => exact hr
  | cons t rest ih =>
    rw [List.map_cons] at hnodup
    obtain ⟨hnot, hrest⟩ := List.nodup_cons.mp hnodup
    change 0 ≤ ((r.insert t).insertAll rest).coefficientFor k
    by_cases hk : t.var = k
    · subst hk
      refine ih hrest ?_ fun t' ht' heq => absurd (List.mem_map.mpr ⟨t', ht', heq⟩) hnot
      rcases coefficientFor_insert_or r t with hzero | hsum
      · exact hzero.ge
      · exact (hts t List.mem_cons_self rfl).trans hsum.ge
    · have hsame : (r.insert t).coefficientFor k = r.coefficientFor k :=
        coefficientFor_insert_of_ne t (Ne.symm hk)
      refine ih hrest (hr.trans hsame.ge) fun t' ht' heq => ?_
      rw [hsame]
      exact hts t' (List.mem_cons_of_mem _ ht') heq

/-- Where a row replaces a key that it does not have, a coefficient stays non-negative if it is not
made negative. -/
theorem coefficientFor_substitute_nonneg (hk : other.contains k = false)
    (hr : 0 ≤ r.coefficientFor k')
    (hsum : 0 ≤ r.coefficientFor k' + r.coefficientFor k * other.coefficientFor k') :
    0 ≤ (r.substitute (.unit k) other).coefficientFor k' := by
  cases hcontains : r.contains k with
  | false =>
    rw [substitute_of_not_contains (t := .unit k) hcontains]
    exact hr
  | true =>
    by_cases hkk : k' = k
    · subst hkk
      exact (coefficientFor_of_not_contains (not_contains_substitute (t := .unit k') hk)).ge
    have hremoved : (r.remove k).coefficientFor k' = r.coefficientFor k' :=
      (coefficientFor_remove r k k').trans (if_neg hkk)
    rw [substitute_of_contains (t := .unit k) hcontains]
    refine coefficientFor_insertAll_nonneg ?_ (hr.trans hremoved.ge) fun t ht heq => ?_
    · rw [List.map_map]
      exact (map_var_terms other).symm ▸ other.cells.nodup_keys
    · obtain ⟨t', ht', rfl⟩ := List.mem_map.mp ht
      subst heq
      have hterm : t'.coefficient * (r.coefficientFor k / 1) =
          r.coefficientFor k * other.coefficientFor t'.var := by
        rw [div_one, coefficient_of_mem_terms ht', mul_comm]
      exact hsum.trans (congrArg₂ (· + ·) hremoved hterm).ge

/-- The key that leaves gets a coefficient that is not negative, and the others are divided. -/
theorem coefficientFor_solveForPair_or (hbasic : r.contains basic = false)
    (hpos : 0 < r.coefficientFor k) (hne : k' ≠ k) :
    k' = basic ∧ 0 ≤ (r.solveForPair basic k).coefficientFor k' ∨
      (r.solveForPair basic k).coefficientFor k' = -r.coefficientFor k' / r.coefficientFor k := by
  have hkb : k ≠ basic := by
    rintro rfl
    rw [coefficientFor_of_not_contains hbasic] at hpos
    exact lt_irrefl _ hpos
  have hequated : r.equated basic k = r.insert ⟨basic, -1⟩ := by
    rw [equated, if_pos (contains_of_coefficientFor_ne_zero hpos.ne')]
  have hpivot : (r.insert ⟨basic, -1⟩).coefficientFor k = r.coefficientFor k :=
    coefficientFor_insert_of_ne ⟨basic, -1⟩ hkb
  have hsolved : (r.solveForPair basic k).coefficientFor k' =
      -(r.insert ⟨basic, -1⟩).coefficientFor k' / r.coefficientFor k := by
    rw [solveForPair, hequated, ← hpivot]
    exact (coefficientFor_solveFor (ne_of_eq_of_ne hpivot hpos.ne') k').trans (if_neg hne)
  rw [hsolved]
  by_cases heq : k' = basic
  · refine .inl ⟨heq, div_nonneg (neg_nonneg.mpr ?_) hpos.le⟩
    subst heq
    rcases coefficientFor_insert_or r ⟨k', -1⟩ with hzero | hsum
    · exact hzero.le
    · rw [hsum, coefficientFor_of_not_contains hbasic]
      norm_num
  · rw [coefficientFor_insert_of_ne ⟨basic, -1⟩ heq]
    exact .inr rfl

end Tolerance

end Row

namespace Tableau

open Attempt

variable {t t' : Tableau Rat} {S S' : Assignment Rat → Prop}
  {cost cost' value : Assignment Rat → Rat}
  {row row' other : Row Rat} {k entering leaving : Key} {target : Target} {v : Assignment Rat}
  {D : Key → Prop}


/-! ## Signs -/

/-- No symbol is negative where all variables that are not basic are zero. -/
def Feasible (t : Tableau Rat) : Prop :=
  ∀ k row, t.rows.get? k = some row → k.unrestricted = false → 0 ≤ row.constant

theorem feasible_iff :
    t.Feasible ↔ ∀ e ∈ t.rows.entries, e.1.unrestricted = false → 0 ≤ e.2.constant :=
  Table.forall_get?_iff

instance (t : Tableau Rat) : Decidable t.Feasible := decidable_of_iff' _ feasible_iff

/-- Those of the given keys that are basic are zero, and stay zero as long as the others of them
do. -/
def Idle (t : Tableau Rat) (D : Key → Prop) : Prop :=
  ∀ k row, t.rows.get? k = some row → D k →
    row.constant = 0 ∧ ∀ k', row.coefficientFor k' ≠ 0 → D k'

/-- The markers of required equalities that are basic are zero, and stay zero as long as the other
markers do. -/
def DummiesIdle (t : Tableau Rat) : Prop :=
  ∀ k row, t.rows.get? k = some row → k.dummy = true →
    row.constant = 0 ∧ ∀ k', row.coefficientFor k' ≠ 0 → k'.dummy = true

theorem violates_iff_of_exact (h : t.epsilon = 0) :
    t.violates k row = true ↔ k.unrestricted = false ∧ row.constant < 0 := by
  rw [violates_iff, h, neg_zero]

/-- Without violated rows, a tableau is feasible. -/
theorem feasible_of_violates (h : t.epsilon = 0)
    (hviolates : ∀ k row, t.rows.get? k = some row → t.violates k row = false) : t.Feasible := by
  intro k row hrow hk
  by_contra hneg
  have := (violates_iff_of_exact h).mpr ⟨hk, not_le.mp hneg⟩
  rw [hviolates k row hrow] at this
  cases this

/-- The constants of the rows move with the entering variable. -/
theorem constant_pivot (h : t.Eliminated) (hrow : t.rows.get? leaving = some row)
    (hentering : row.coefficientFor entering ≠ 0)
    (hnew : (t.pivot entering leaving).rows.get? k = some row') :
    (k = entering ∧ row'.constant = -row.constant / row.coefficientFor entering) ∨
      k ≠ leaving ∧ ∃ old, t.rows.get? k = some old ∧ row'.constant =
        old.constant + old.coefficientFor entering *
          (-row.constant / row.coefficientFor entering) := by
  have hconstant := Row.constant_solveForPair hentering (h.coefficientFor_self hrow)
  rcases get?_pivot_cases hrow hnew with ⟨heq, rfl⟩ | ⟨hne, old, hold, rfl⟩
  · exact .inl ⟨heq, hconstant⟩
  · exact .inr ⟨hne, old, hold, by rw [Row.constant_substitute, hconstant]⟩

/-- When the row that bounds the entering variable the most leaves, no row becomes infeasible. -/
theorem Feasible.pivot (h : t.Feasible) (he : t.Eliminated)
    (hleaving : t.leaving? entering = some leaving) : (t.pivot entering leaving).Feasible := by
  obtain ⟨row, hrow, hrestricted, hneg⟩ := leaving?_eq_some hleaving
  have hratio : 0 ≤ -row.constant / row.coefficientFor entering :=
    div_nonneg_of_nonpos (neg_nonpos.mpr (h _ _ hrow hrestricted)) hneg.le
  intro k row' hnew hk
  rcases constant_pivot he hrow hneg.ne hnew with ⟨-, hconstant⟩ | ⟨-, old, hold, hconstant⟩
  · rw [hconstant]
    exact hratio
  · have hconst := h k old hold hk
    rw [hconstant]
    by_cases hsign : 0 ≤ old.coefficientFor entering
    · exact add_nonneg hconst (mul_nonneg hsign hratio)
    · -- The entering variable grows no further than this row allows
      have hle := leaving?_le hleaving hrow hold hk (not_le.mp hsign)
      have hmul := mul_le_mul_of_nonpos_left hle (not_le.mp hsign).le
      rw [mul_div_cancel₀ _ (not_le.mp hsign).ne] at hmul
      linarith

theorem Idle.eraseRow (h : t.Idle D) (k : Key) : (t.eraseRow k).Idle D := by
  intro k' row hrow hk'
  exact h k' row (get?_of_eraseRow hrow).2 hk'

/-- A row may enter for another key, or if it is idle itself. -/
theorem Idle.enter (h : t.Idle D) (hproper : ∀ k row, t.rows.get? k = some row → row.Proper)
    (hrow : D k → row.constant = 0 ∧ ∀ k', row.coefficientFor k' ≠ 0 → D k') :
    (t.enter k row).Idle D := by
  intro j new hnew hj
  rcases get?_enter_cases hnew with ⟨rfl, rfl⟩ | ⟨old, hold, rfl⟩
  · exact hrow hj
  · obtain ⟨hconstant, hidle⟩ := h j old hold hj
    by_cases hk : old.coefficientFor k = 0
    · refine ⟨by rw [Row.constant_substitute, hconstant, hk, zero_mul, add_zero],
        fun k' hk' => hidle k' fun hzero => hk' ?_⟩
      rw [Row.coefficientFor_substitute (hproper _ _ hold), hk, hzero, zero_mul, ite_self, add_zero]
    · obtain ⟨hrowconstant, hrowidle⟩ := hrow (hidle k hk)
      refine ⟨by rw [Row.constant_substitute, hconstant, hrowconstant, mul_zero,
        add_zero], fun k' hk' => ?_⟩
      by_contra hnot
      apply hk'
      have hzero : old.coefficientFor k' = 0 := by_contra fun hne => hnot (hidle k' hne)
      have hrowzero : row.coefficientFor k' = 0 := by_contra fun hne => hnot (hrowidle k' hne)
      rw [Row.coefficientFor_substitute (hproper _ _ hold), hzero, hrowzero, mul_zero, ite_self,
        add_zero]

theorem Idle.of_eq (h : t.Idle D) (hrows : t'.rows = t.rows) : t'.Idle D :=
  fun k row hrow => h k row (hrows ▸ hrow)

theorem Idle.pivot (h : t.Idle D) (hr : t.Represents S cost)
    (hrow : t.rows.get? leaving = some row) (hentering : ¬ D entering) :
    (t.pivot entering leaving).Idle D := by
  have hentered : ((t.eraseRow leaving).enter entering
      (row.solveForPair leaving entering)).Idle D :=
    (h.eraseRow leaving).enter (fun _ _ => (hr.eraseRow leaving).proper_row)
      fun hidle => absurd hidle hentering
  rw [pivot_eq hrow]
  exact hentered.of_eq rfl

theorem DummiesIdle.eraseRow (h : t.DummiesIdle) (k : Key) : (t.eraseRow k).DummiesIdle :=
  Idle.eraseRow h k

theorem DummiesIdle.of_eq (h : t.DummiesIdle) (hrows : t'.rows = t.rows) : t'.DummiesIdle :=
  Idle.of_eq h hrows

theorem DummiesIdle.pivot (h : t.DummiesIdle) (hr : t.Represents S cost)
    (hrow : t.rows.get? leaving = some row) (hentering : entering.pivotable = true) :
    (t.pivot entering leaving).DummiesIdle :=
  Idle.pivot h hr hrow (Bool.eq_false_iff.mp (Key.dummy_of_pivotable hentering))

/-! ## What is made small -/

/-- On the solutions, what a target asks to be made small is a value. -/
def Measures (t : Tableau Rat) (target : Target) (S : Assignment Rat → Prop)
    (value : Assignment Rat → Rat) : Prop :=
  ∃ row, t.targetRow target = some row ∧ ∀ v, S v → row.evaluate v = value v

theorem Measures.pivot (h : t.Measures target S value) (hr : t.Represents S cost)
    (hrow : t.rows.get? leaving = some row) (hentering : row.coefficientFor entering ≠ 0) :
    (t.pivot entering leaving).Measures target S value := by
  obtain ⟨goal, hgoal, hvalue⟩ := h
  obtain ⟨goal', hgoal', heq⟩ := hr.evaluate_target_pivot hrow hentering hgoal
  exact ⟨goal', hgoal', fun v hv => by rw [heq v hv, hvalue v hv]⟩

/-- The objective measures the costs, but for a constant. -/
theorem Represents.exists_measures (h : t.Represents S cost) :
    ∃ x, t.Measures .objective S fun v => cost v + x := by
  obtain ⟨offset, hoffset⟩ := h.exists_offset
  exact ⟨-offset, t.objective, rfl, fun v hv => by linarith [hoffset v hv]⟩

/-- A line that falls falls below every bound. -/
theorem exists_add_mul_lt {slope : Rat} (hneg : slope < 0) (start bound : Rat) :
    ∃ x : Rat, 0 ≤ x ∧ start + slope * x < bound := by
  have hsteps : 0 ≤ |start - bound| / -slope := div_nonneg (abs_nonneg _) (neg_nonneg.mpr hneg.le)
  refine ⟨|start - bound| / -slope + 1, by linarith, ?_⟩
  have hfall : slope * (|start - bound| / -slope) = -|start - bound| := by
    rw [div_neg, mul_neg, mul_div_cancel₀ _ hneg.ne]
  have habs := le_abs_self (start - bound)
  rw [mul_add, hfall, mul_one]
  linarith

/-- A variable that no row bounds and that makes a target smaller makes it as small as one likes. -/
theorem not_bounded (hr : t.Represents S cost) (hfeasible : t.Feasible)
    (hmeasures : t.Measures target S value) (hgoal : t.targetRow target = some row)
    (hneg : row.coefficientFor entering < 0) (hleaving : t.leaving? entering = none) :
    ¬ Bounded S value := by
  rintro ⟨bound, hbound⟩
  obtain ⟨row', hrow', hvalue⟩ := hmeasures
  rw [hgoal] at hrow'
  cases hrow'
  have hover := hr.separated.target hgoal
  have hproper := hr.proper_target hgoal
  -- The variable grows by enough, and the others that are not basic stay zero
  obtain ⟨x, hx, hsmall⟩ := exists_add_mul_lt hneg row.constant bound
  have hgrown : ∀ r : Row Rat, r.evaluate (Function.update (fun _ => 0) entering x) =
      r.constant + r.coefficientFor entering * x := fun r => by
    rw [Row.evaluate_update, Row.evaluate_zero, sub_zero]
  have hsolution := hr.solves_complete (Function.update (fun _ => 0) entering x)
  refine absurd (hbound _ hsolution fun k hk => ?_) (not_le.mpr ?_)
  · cases hrow : t.rows.get? k with
    | some r =>
      rw [complete_of_get? hrow, hgrown]
      exact add_nonneg (hfeasible k r hrow hk) (mul_nonneg (leaving?_eq_none hleaving hrow hk) hx)
    | none =>
      rw [complete_of_isBasic_eq_false (isBasic_eq_false_iff.mpr hrow)]
      by_cases heq : k = entering
      · rw [heq, Function.update_self]
        exact hx
      · rw [Function.update_of_ne heq]
  · rw [← hvalue _ hsolution, evaluate_complete hover hproper, hgrown]
    exact hsmall

/-! ## Rules in exact arithmetic -/

theorem entering?_eq_some_rat (h : t.entering? row = some entering) :
    entering.pivotable = true ∧ ¬ -t.epsilon ≤ row.coefficientFor entering := by
  obtain ⟨c, hc, rfl, hpivotable, hneg⟩ := entering?_eq_some h
  exact ⟨hpivotable, by rwa [← Row.coefficient_of_mem_terms hc]⟩

theorem minimal_of_entering?_eq_none (hepsilon : t.epsilon = 0) (h : t.entering? row = none) :
    row.Minimal := by
  intro k hk
  cases hcontains : row.contains k with
  | false => rw [Row.coefficientFor_of_not_contains hcontains]
  | true =>
    have hle := entering?_eq_none h (Row.exists_mem_terms hcontains) hk
    rwa [hepsilon, neg_zero] at hle

/-- The key that enters has a smallest coefficient. -/
theorem entering?_le (hepsilon : t.epsilon = 0) (h : t.entering? row = some k)
    {k' : Key} (hk' : k'.pivotable = true) (hneg : row.coefficientFor k' < 0) :
    row.coefficientFor k ≤ row.coefficientFor k' := by
  obtain ⟨c, hbest, rfl⟩ := Option.map_eq_some_iff.mp h
  have hle := foldl_best_le (f := Term.coefficient) (fun _ _ => rfl)
    (fun _ _ h => (of_decide_eq_true h).le) (fun _ _ h => not_lt.mp (of_decide_eq_false h)) hbest
  rcases mem_of_foldl_best hbest with hmem | hnone
  · have hterm := Row.exists_mem_terms (Row.contains_of_coefficientFor_ne_zero hneg.ne)
    have hkept : (⟨k', row.coefficientFor k'⟩ : Term Key Rat) ∈ row.terms.filter fun c =>
        c.var.pivotable && !decide (-t.epsilon ≤ c.coefficient) := by
      refine List.mem_filter.mpr ⟨hterm, ?_⟩
      simp [hk', hepsilon, hneg]
    rw [← Row.coefficient_of_mem_terms (List.mem_filter.mp hmem).1]
    exact hle.1 _ hkept
  · cases hnone

/-- A key whose coefficient is below zero and below all others enters. -/
theorem entering?_eq_some_of_lt (hepsilon : t.epsilon = 0) (hk : k.pivotable = true)
    (hneg : row.coefficientFor k < 0)
    (hless : ∀ k', k'.pivotable = true → k' ≠ k → row.coefficientFor k < row.coefficientFor k') :
    t.entering? row = some k := by
  cases hentering : t.entering? row with
  | none => exact absurd hneg (not_lt.mpr (minimal_of_entering?_eq_none hepsilon hentering k hk))
  | some k' =>
    by_contra hne
    have hne : k' ≠ k := fun heq => hne (congrArg some heq)
    exact absurd (entering?_le hepsilon hentering hk hneg)
      (not_le.mpr (hless k' (entering?_eq_some_rat hentering).1 hne))

theorem dualEntering?_eq_some_rat (h : t.dualEntering? row = some entering) :
    entering.pivotable = true ∧ 0 < row.coefficientFor entering := by
  obtain ⟨x, hx, hpivotable, hpos⟩ := dualEntering?_eq_some h
  have hcoefficient : x = row.coefficientFor entering := Row.coefficient_of_mem_terms hx
  exact ⟨hpivotable, by rw [← hcoefficient]; exact not_le.mp hpos⟩

theorem nonpos_of_dualEntering?_eq_none (h : t.dualEntering? row = none) (hk : k.pivotable = true) :
    row.coefficientFor k ≤ 0 := by
  cases hcontains : row.contains k with
  | false => rw [Row.coefficientFor_of_not_contains hcontains]
  | true => exact dualEntering?_eq_none h (Row.exists_mem_terms hcontains) hk

/-- A coefficient stays where it is or above if its ratio is no smaller than the one that is taken
off. -/
theorem add_mul_neg_div_nonneg {x y gain pivot : Rat} (hx : 0 ≤ x) (hgain : 0 ≤ gain)
    (hpivot : 0 < pivot) (hratio : 0 < y → gain / pivot ≤ x / y) :
    0 ≤ x + gain * (-y / pivot) := by
  by_cases hy : 0 < y
  · have hmul := mul_le_mul_of_nonneg_right (hratio hy) hy.le
    rw [div_mul_cancel₀ _ hy.ne'] at hmul
    have hsame : gain * (-y / pivot) = -(gain / pivot * y) := by ring
    rw [hsame]
    linarith
  · exact add_nonneg hx (mul_nonneg hgain (div_nonneg (neg_nonneg.mpr (not_lt.mp hy)) hpivot.le))

/-- When the key with the smallest ratio enters, nothing that may enter improves the objective,
whatever counts as zero. -/
theorem minimal_dual_pivot {tolerance : Rat} {t : Tableau (Tolerant tolerance)}
    {row : Row (Tolerant tolerance)} (hseparated : t.Separated) (hepsilon : t.epsilon = 0)
    (hminimal : t.objective.Minimal) (hrow : t.rows.get? leaving = some row)
    (hentering : t.dualEntering? row = some entering) :
    (t.pivot entering leaving).objective.Minimal := by
  obtain ⟨hpivotable, hpos⟩ := dualEntering?_eq_some_rat hentering
  have hobjective : (t.pivot entering leaving).objective =
      t.objective.substitute (.unit entering) (row.solveForPair leaving entering) :=
    Option.some_inj.mp (targetRow_pivot hrow .objective)
  have hself : row.contains leaving = false :=
    (hseparated.row hrow).nonbasic (isBasic_of_get? hrow)
  have hgain := hminimal entering hpivotable
  intro k hk
  rw [hobjective]
  refine Row.coefficientFor_substitute_nonneg (Row.not_contains_solveFor _ _)
    (hminimal k hk) ?_
  by_cases hne : k = entering
  · have hgone : (row.solveForPair leaving entering).coefficientFor k = 0 :=
      Row.coefficientFor_of_not_contains (hne ▸ Row.not_contains_solveFor _ _)
    rw [hgone, mul_zero, add_zero]
    exact hminimal k hk
  rcases Row.coefficientFor_solveForPair_or hself hpos hne with ⟨-, hsolved⟩ | hsolved
  · exact add_nonneg (hminimal k hk) (mul_nonneg hgain hsolved)
  · rw [hsolved]
    apply add_mul_neg_div_nonneg (hminimal k hk) hgain hpos
    intro hsign
    have hterm : ∀ k, row.coefficientFor k ≠ 0 → ⟨k, row.coefficientFor k⟩ ∈ row.terms :=
      fun k hk => Row.exists_mem_terms (Row.contains_of_coefficientFor_ne_zero hk)
    have hdistinct : (row.terms.map (·.var)).Nodup := by
      rw [Row.map_var_terms]
      exact row.cells.nodup_keys
    exact dualEntering?_le hepsilon hentering (hterm entering hpos.ne') (hterm k hsign.ne')
      hdistinct hk hsign

end Tableau

end Cassowary
