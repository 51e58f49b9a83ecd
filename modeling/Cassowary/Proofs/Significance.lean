import Mathlib.Algebra.Order.Field.Basic
import Cassowary.Proofs.Scaling

/-!
# Terms that count

A coefficient that counts as zero when a term is inserted leaves no term. So at first all terms of a
row have coefficients that count: none is closer to zero than the tolerance. Sums, replacements,
changes of sign and folding keep it so, as every term that they touch is looked at again, or keeps
its size. To solve for a key divides all other coefficients by that of the key, and nothing is
looked at. The quotients count if each of the coefficients is at least the tolerance times the one
that is solved for. Otherwise a term is left that does not count, and the next key that is solved
for may be the one that it belongs to.

## Main definitions

* `Row.Significant` — no term is closer to zero than the tolerance
* `Row.Balanced`, `Row.Gentle` — a key that can be solved for, a change that solves for such a key
* `Row.pivots` — what a change that solves for a key divides by

## Main results

* `Row.Significant.insert`, `Row.significant_solveFor_iff` — what is looked at, and what is not
* `Row.significant_perform_iff` — one change
* `Row.significant_run_iff` — any number of changes
* `Row.not_significant_run_lopsided` — two terms of very different sizes
-/

namespace Cassowary

namespace Scalar

/-- What does not count as zero is not closer to zero than the tolerance. -/
theorem settled_eq_zero_or_le {tolerance : Rat} (x : Tolerant tolerance) :
    settled x = 0 ∨ Scalar.tolerance ≤ |settled x| := by
  rw [settled]
  cases hx : negligible x with
  | true => exact .inl rfl
  | false =>
    rw [negligible_of_ne_zero (ne_zero_of_negligible hx), decide_eq_false_iff_not, not_lt] at hx
    exact .inr hx

end Scalar

namespace Row

variable {tolerance : Rat} {r other : Row (Tolerant tolerance)} {k : Key}

/-! ## Coefficients that count -/

/-- No term is closer to zero than the tolerance. -/
def Significant (r : Row (Tolerant tolerance)) : Prop :=
  ∀ t ∈ r.terms, Scalar.tolerance ≤ |t.coefficient|

theorem Proper.forall_terms_iff (h : r.Proper) {P : Key → Tolerant tolerance → Prop} :
    (∀ t ∈ r.terms, P t.var t.coefficient) ↔
      ∀ k, r.coefficientFor k = 0 ∨ P k (r.coefficientFor k) := by
  constructor
  · intro hP k
    by_cases hk : r.coefficientFor k = 0
    · exact .inl hk
    · exact .inr (hP _ (exists_mem_terms (contains_of_coefficientFor_ne_zero hk)))
  · intro hP t ht
    have hthere : r.contains t.var = true := contains_iff_mem_keys.mpr (var_mem_keys ht)
    have hne : r.coefficientFor t.var ≠ 0 := h.contains_iff.mp hthere
    rw [coefficient_of_mem_terms ht]
    exact (hP t.var).resolve_left hne

theorem Proper.significant_iff (h : r.Proper) :
    r.Significant ↔ ∀ k, r.coefficientFor k = 0 ∨ Scalar.tolerance ≤ |r.coefficientFor k| :=
  h.forall_terms_iff (P := fun _ c => Scalar.tolerance ≤ |c|)

theorem significant_ofConstant (c : Tolerant tolerance) : (ofConstant c).Significant :=
  fun _ ht => absurd ht List.not_mem_nil

/-! ## Terms that are looked at -/

/-- A term that is inserted is looked at together with the one that it is added to. -/
theorem Significant.insert (hproper : r.Proper) (h : r.Significant)
    (t : Term Key (Tolerant tolerance)) : (r.insert t).Significant := by
  refine (hproper.insert_tolerant t).significant_iff.mpr fun k => ?_
  rw [coefficientFor_insert_settled hproper.scale_ne_zero]
  split
  · exact Scalar.settled_eq_zero_or_le _
  · exact hproper.significant_iff.mp h k

theorem Significant.insertAll (hproper : r.Proper) (h : r.Significant)
    (ts : List (Term Key (Tolerant tolerance))) : (r.insertAll ts).Significant := by
  induction ts generalizing r with
  | nil => exact h
  | cons t rest ih => exact ih (hproper.insert_tolerant t) (h.insert hproper t)

theorem Significant.insertRow (hproper : r.Proper) (h : r.Significant)
    (other : Row (Tolerant tolerance)) (factor : Tolerant tolerance) :
    (r.insertRow other factor).Significant :=
  Significant.insertAll (hproper.addConstant _) h _

theorem Significant.remove (hproper : r.Proper) (h : r.Significant) (k : Key) :
    (r.remove k).Significant := by
  rw [(hproper.remove k).significant_iff]
  intro k'
  rw [coefficientFor_remove]
  split
  · exact .inl rfl
  · exact hproper.significant_iff.mp h k'

theorem Significant.substitute (hproper : r.Proper) (h : r.Significant)
    (t : Term Key (Tolerant tolerance)) (other : Row (Tolerant tolerance)) :
    (r.substitute t other).Significant := by
  cases hr : r.contains t.var with
  | false => rwa [substitute_of_not_contains hr]
  | true =>
    rw [substitute_of_contains hr]
    exact (h.remove hproper t.var).insertRow (hproper.remove t.var) other _

theorem Significant.equated (hproper : r.Proper) (h : r.Significant) (basic k : Key) :
    (r.equated basic k).Significant := by
  rw [Row.equated]
  split
  · exact h.insert hproper _
  · exact h

/-! ## Terms that keep their size -/

theorem Significant.reverseSign (hproper : r.Proper) (h : r.Significant) :
    r.reverseSign.Significant := by
  have hreversed : r.reverseSign.Proper := hproper.reverseSign
  refine hreversed.significant_iff.mpr fun k => ?_
  have hnegated : r.reverseSign.coefficientFor k = -r.coefficientFor k :=
    coefficientFor_reverseSign r k
  rw [hnegated, neg_eq_zero, abs_neg]
  exact hproper.significant_iff.mp h k

theorem Significant.normalize (hproper : r.Proper) (h : r.Significant) :
    r.normalize.Significant := by
  rcases normalize_eq_or r with heq | heq <;> rw [heq]
  · exact h
  · exact h.reverseSign hproper

theorem Significant.foldScale (hproper : r.Proper) (h : r.Significant) :
    r.foldScale.Significant := by
  have hfolded : r.foldScale.Proper := hproper.foldScale
  refine hfolded.significant_iff.mpr fun k => ?_
  have hsame : r.foldScale.coefficientFor k = r.coefficientFor k := coefficientFor_foldScale r k
  rw [hsame]
  exact hproper.significant_iff.mp h k

/-! ## Terms that are divided -/

/-- No other coefficient is smaller than that of the key by so much that the quotient does not
count. -/
def Balanced (r : Row (Tolerant tolerance)) (k : Key) : Prop :=
  ∀ t ∈ r.terms, t.var ≠ k → Scalar.tolerance * |r.coefficientFor k| ≤ |t.coefficient|

/-- Solving for a key leaves terms that count if and only if the quotients do. -/
theorem significant_solveFor_iff (hproper : r.Proper) (h : r.Significant) (k : Key) :
    (r.solveFor k).Significant ↔ r.Balanced k := by
  by_cases hk : r.coefficientFor k = 0
  · have hnot : r.contains k = false := hproper.contains_eq_false_iff.mpr hk
    have hsame : r.solveFor k = r := by
      rw [solveFor, solveFor?, find?_eq_none_iff.mpr hnot]
      rfl
    refine iff_of_true (by rwa [hsame]) fun t _ _ => ?_
    rw [hk, abs_zero, mul_zero]
    exact abs_nonneg _
  · have hsolved : (r.solveFor k).Proper := hproper.solveFor hk
    have hquotient : ∀ k', (r.solveFor k).coefficientFor k' =
        if k' = k then 0 else -r.coefficientFor k' / r.coefficientFor k :=
      coefficientFor_solveFor hk
    rw [hsolved.significant_iff, Balanced, hproper.forall_terms_iff
      (P := fun k' c => k' ≠ k → Scalar.tolerance * |r.coefficientFor k| ≤ |c|)]
    refine forall_congr' fun k' => ?_
    rw [hquotient]
    by_cases hkk : k' = k
    · rw [if_pos hkk]
      exact iff_of_true (.inl rfl) (.inr fun hne => absurd hkk hne)
    · rw [if_neg hkk, div_eq_zero_iff, neg_eq_zero, or_iff_left hk, abs_div, abs_neg,
        le_div_iff₀ (abs_pos.mpr hk), imp_iff_right hkk]

/-- A change that solves for a key, if for any, leaves quotients that count. -/
def Gentle {ι : Type} (rows : ι → Row (Tolerant tolerance)) (i : ι) :
    Change ι (Tolerant tolerance) → Prop
  | .solveFor k => (rows i).Balanced k
  | .solveForPair basic k => ((rows i).equated basic k).Balanced k
  | _ => True

instance (r : Row (Tolerant tolerance)) (k : Key) : Decidable (r.Balanced k) :=
  List.decidableBAll _ _

instance {ι : Type} (rows : ι → Row (Tolerant tolerance)) (i : ι)
    (c : Change ι (Tolerant tolerance)) : Decidable (Gentle rows i c) := by
  cases c with
  | solveFor k => exact inferInstanceAs (Decidable (Balanced _ _))
  | solveForPair basic k => exact inferInstanceAs (Decidable (Balanced _ _))
  | _ => exact instDecidableTrue

/-- What a change divides by in order to solve for a key. -/
def pivots {ι α : Type} [Scalar α] (rows : ι → Row α) (i : ι) : Change ι α → List α
  | .solveFor k => (rows i).solveDivisors k
  | .solveForPair basic k => ((rows i).equated basic k).solveDivisors k
  | _ => []

/-- What is divided by is the coefficient of a term. -/
theorem mem_solveDivisors_iff {d : Tolerant tolerance} :
    d ∈ r.solveDivisors k ↔ ⟨k, d⟩ ∈ r.terms := by
  rw [solveDivisors, Option.mem_toList, Option.map_eq_some_iff]
  constructor
  · rintro ⟨t, ht, rfl⟩
    obtain ⟨c, hc, rfl⟩ := Option.map_eq_some_iff.mp ht
    exact List.mem_map.mpr ⟨(k, c), Table.get?_eq_some_iff.mp hc, rfl⟩
  · intro hd
    obtain ⟨e, he, heq⟩ := List.mem_map.mp hd
    obtain ⟨rfl, rfl⟩ := Term.mk.inj heq
    exact ⟨_, Option.map_eq_some_iff.mpr ⟨e.2, Table.get?_eq_some_iff.mpr he, rfl⟩, rfl⟩

theorem Significant.le_of_mem_solveDivisors (h : r.Significant) {d : Tolerant tolerance}
    (hd : d ∈ r.solveDivisors k) : Scalar.tolerance ≤ |d| :=
  h ⟨k, d⟩ (mem_solveDivisors_iff.mp hd)

/-- One change to rows whose terms count leaves terms that count, unless it solves for a key and a
quotient does not. -/
theorem significant_perform_iff {ι : Type} {rows : ι → Row (Tolerant tolerance)}
    (hrange : ∀ i, (rows i).InRange) (h : ∀ i, (rows i).Significant) (i : ι)
    (c : Change ι (Tolerant tolerance)) :
    (perform rows i c).2.Significant ↔ Gentle rows i c := by
  have hproper := (hrange i).toProper
  -- Only solving divides, and all else keeps to what counts by itself
  cases c with
  | new c => exact iff_of_true (significant_ofConstant c) trivial
  | ofConstraint c =>
    have hconstant : (ofConstant c.constant).Proper := proper_ofConstant c.constant
    exact iff_of_true ((significant_ofConstant c.constant).insertAll hconstant c.terms) trivial
  | addConstant delta => exact iff_of_true (h i) trivial
  | insert t => exact iff_of_true ((h i).insert hproper t) trivial
  | insertRow other factor =>
    exact iff_of_true ((h i).insertRow hproper (rows other) factor) trivial
  | remove k => exact iff_of_true ((h i).remove hproper k) trivial
  | substitute t other regular =>
    exact iff_of_true ((h i).substitute hproper t (rows other)) trivial
  | normalize => exact iff_of_true ((h i).normalize hproper) trivial
  | reverseSign => exact iff_of_true ((h i).reverseSign hproper) trivial
  | solveFor k => exact significant_solveFor_iff hproper (h i) k
  | solveForPair basic k =>
    exact significant_solveFor_iff ((hrange i).equated basic k).toProper
      ((h i).equated hproper basic k) k
  | foldScale => exact iff_of_true ((h i).foldScale hproper) trivial

/-- What is divided by in order to solve counts as long as the terms do. -/
theorem le_of_mem_pivots {ι : Type} {rows : ι → Row (Tolerant tolerance)}
    (hrange : ∀ i, (rows i).InRange) (h : ∀ i, (rows i).Significant) (i : ι)
    (c : Change ι (Tolerant tolerance)) : ∀ d ∈ pivots rows i c, Scalar.tolerance ≤ |d| := by
  intro d hd
  cases c with
  | solveFor k => exact (h i).le_of_mem_solveDivisors hd
  | solveForPair basic k =>
    exact ((h i).equated (hrange i).toProper basic k).le_of_mem_solveDivisors hd
  | _ => cases hd

/-! ## Any number of changes -/

section Run

variable {ι : Type} [DecidableEq ι] (cs : List (ι × Change ι (Tolerant tolerance)))

theorem inRange_run (i : ι) : (run cs i).InRange :=
  (foldl_step_plain cs fun _ => inRange_ofConstant 0).1 i

/-- The rows after each of several changes have terms that count only, if and only if each change is
gentle where it is made. -/
theorem forall_significant_iff : (∀ n i, (run (cs.take n) i).Significant) ↔
    ∀ n, ∀ h : n < cs.length, Gentle (run (cs.take n)) cs[n].1 cs[n].2 := by
  have hnext n (h : n < cs.length) : run (cs.take (n + 1)) =
      Function.update (run (cs.take n)) cs[n].1 (perform (run (cs.take n)) cs[n].1 cs[n].2).2 := by
    rw [List.take_succ_eq_append_getElem h, run, List.foldl_append]
    rfl
  constructor
  · intro hall n h
    have hchanged := hall (n + 1) cs[n].1
    rw [hnext n h, Function.update_self] at hchanged
    exact (significant_perform_iff (inRange_run _) (hall n) _ _).mp hchanged
  · intro hgentle n
    induction n with
    | zero => exact fun i => significant_ofConstant 0
    | succ n ih =>
      by_cases h : n < cs.length
      · intro i
        rw [hnext n h]
        by_cases hi : i = cs[n].1
        · rw [hi, Function.update_self]
          exact (significant_perform_iff (inRange_run _) ih _ _).mpr (hgentle n h)
        · rw [Function.update_of_ne hi]
          exact ih i
      · rwa [List.take_of_length_le (by omega), ← List.take_of_length_le (Nat.le_of_not_lt h)]

/-- While rows are changed, all their terms count if and only if every change that solves for a key
leaves quotients that do, and if and only if nothing that a solution may divide by is closer to zero
than the tolerance. Whether they count or not, no coefficient of a term is zero. -/
theorem significant_run_iff :
    ((∀ n i, (run (cs.take n) i).Significant) ↔
      ∀ n, ∀ h : n < cs.length, Gentle (run (cs.take n)) cs[n].1 cs[n].2) ∧
    ((∀ n i, (run (cs.take n) i).Significant) ↔
      ∀ n i c, ∀ d ∈ pivots (run (cs.take n)) i c, Scalar.tolerance ≤ |d|) ∧
    ∀ i, ∀ t ∈ (run cs i).terms, t.coefficient ≠ 0 := by
  refine ⟨forall_significant_iff cs, ⟨fun h n => ?_, fun h n i t ht => ?_⟩, fun i t ht => ?_⟩
  · exact le_of_mem_pivots (inRange_run _) (h n)
  · exact h n i (.solveFor t.var) t.coefficient (mem_solveDivisors_iff.mpr ht)
  · have hthere : (run cs i).contains t.var = true := contains_iff_mem_keys.mpr (var_mem_keys ht)
    rw [coefficient_of_mem_terms ht]
    exact (inRange_run cs i).contains_iff.mp hthere

end Run

/-- Whatever is done to the two rows, they are solved for a key only where no quotient comes close
to zero. -/
theorem significant_run_busy :
    (∀ n, ∀ h : n < (busy (1 / 10 ^ 8)).length, Gentle (run ((busy (1 / 10 ^ 8)).take n))
      (busy (1 / 10 ^ 8))[n].1 (busy (1 / 10 ^ 8))[n].2) ∧
    (run (busy (1 / 10 ^ 8)) true).Significant ∧
    ∀ d ∈ pivots (run (busy (1 / 10 ^ 8))) true (.solveFor (.ofIndex .slack false 0)),
      1 / 10 ^ 8 ≤ |d| := by
  have hgentle : ∀ n, ∀ h : n < (busy (1 / 10 ^ 8)).length, Gentle
      (run ((busy (1 / 10 ^ 8)).take n)) (busy (1 / 10 ^ 8))[n].1 (busy (1 / 10 ^ 8))[n].2 := by
    decide +kernel
  obtain ⟨hsteps, hpivots, -⟩ := significant_run_iff (busy (1 / 10 ^ 8))
  have hall := hsteps.mpr hgentle
  have htrue := hall (busy (1 / 10 ^ 8)).length true
  have hdivide := hpivots.mp hall (busy (1 / 10 ^ 8)).length true (.solveFor (.ofIndex .slack false 0))
  rw [List.take_length] at htrue hdivide
  exact ⟨hgentle, htrue, hdivide⟩

/-- Two terms of very different sizes, solved for the large one. -/
def lopsided (tolerance : Rat) : List (Unit × Change Unit (Tolerant tolerance)) :=
  [((), .insert ⟨.ofIndex .external false 0, 10 ^ 9⟩),
    ((), .insert ⟨.ofIndex .external false 1, 1⟩), ((), .solveFor (.ofIndex .external false 0))]

/-- With the tolerance that is the default, the small term is left with a coefficient that counts as
zero, and solving for its key divides by it. Inserted with this coefficient, it would be no term. -/
theorem not_significant_run_lopsided :
    (run (lopsided (1 / 10 ^ 8)) ()).terms = [⟨.ofIndex .external false 1, -1 / 10 ^ 9⟩] ∧
    ¬ (run (lopsided (1 / 10 ^ 8)) ()).Significant ∧
    pivots (run (lopsided (1 / 10 ^ 8))) () (.solveFor (.ofIndex .external false 1)) =
      [-1 / 10 ^ 9] ∧
    ((ofConstant 0).insert
      ⟨.ofIndex .external false 1, (-1 / 10 ^ 9 : Tolerant (1 / 10 ^ 8))⟩).terms = [] := by
  have hterms : (run (lopsided (1 / 10 ^ 8)) ()).terms =
      [⟨.ofIndex .external false 1, -1 / 10 ^ 9⟩] := by decide +kernel
  refine ⟨hterms, fun h => ?_, by decide +kernel, by decide +kernel⟩
  have hle := h ⟨.ofIndex .external false 1, -1 / 10 ^ 9⟩ (hterms ▸ List.mem_cons_self)
  revert hle
  decide +kernel

end Row

end Cassowary
