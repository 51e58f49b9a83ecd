import Cassowary.Proofs.Optimality

/-!
# Errors that leave the basis one after the other

A number of soft equations tie a slack each to one slack that they have in common. To begin with the
errors that make up for what is missing are basic and all the slacks are not, so nothing is violated
yet: but the common slack has a negative price, since the objective does not see that the basic
errors would become negative with it. So one degenerate pivot follows another. Each of them drives
one of these errors out and brings in the slack that entered last, and the slack of the equation of
that error is the next to enter.

The largest decrease is always that of one certain slack, and the rows that bound it are those of
errors that are still basic. So there are no more pivots than equations.

## Main definitions

* `Tableau.direction` — how the solutions change with a variable that is not basic
* `Star` — equations that tie slacks to one that they have in common
* `Star.At` — the errors that have left the basis, and the slack that is to enter next

## Main results

* `Tableau.Represents.solves_direction` — directions meet the equations without their constants
* `Star.At.pivot` — a pivot drives one more error out
* `Star.ensures_solve` — solving does not need more pivots than there are equations
-/

namespace Cassowary

open Attempt

namespace Tableau

variable {t : Tableau Rat} {S : Assignment Rat → Prop} {cost : Assignment Rat → Rat}
  {row : Row Rat} {k k' b : Key}

/-! ## Directions -/

/-- How the solutions of the rows change with a variable that is not basic. -/
def direction (t : Tableau Rat) (k : Key) : Assignment Rat := fun b =>
  match t.rows.get? b with
  | some row => row.coefficientFor k
  | none => if b = k then 1 else 0

theorem direction_of_get? (hrow : t.rows.get? b = some row) :
    t.direction k b = row.coefficientFor k := by
  rw [direction, hrow]

theorem direction_of_isBasic_eq_false (hb : t.isBasic b = false) :
    t.direction k b = if b = k then 1 else 0 := by
  rw [direction, isBasic_eq_false_iff.mp hb]

theorem direction_nonneg (hb : t.isBasic b = false) : 0 ≤ t.direction k b := by
  rw [direction_of_isBasic_eq_false hb]
  split <;> norm_num

/-- The solution where the variable is one. -/
theorem complete_update_one (t : Tableau Rat) (k b : Key) :
    t.complete (Function.update (fun _ => 0) k 1) b = t.basicSolution b + t.direction k b := by
  cases hrow : t.rows.get? b with
  | some row =>
    rw [complete_of_get? hrow, basicSolution_of_get? hrow, direction_of_get? hrow,
      Row.evaluate_update, Row.evaluate_zero, sub_zero, mul_one]
  | none =>
    have hb := isBasic_eq_false_iff.mpr hrow
    rw [complete_of_isBasic_eq_false hb, basicSolution_of_get?_eq_none hrow,
      direction_of_isBasic_eq_false hb, zero_add, Function.update_apply]

namespace Represents

theorem solves_direction (h : t.Represents S cost) (k : Key) :
    S t.basicSolution ∧ S fun b => t.basicSolution b + t.direction k b := by
  refine ⟨h.solves_complete _, ?_⟩
  have hmoved := h.solves_complete (Function.update (fun _ => 0) k 1)
  rwa [funext (t.complete_update_one k)] at hmoved

/-- The coefficient of the objective is what the cost changes by. -/
theorem coefficientFor_objective (h : t.Represents S cost) (k : Key) :
    t.objective.coefficientFor k =
      cost (fun b => t.basicSolution b + t.direction k b) - cost t.basicSolution := by
  obtain ⟨offset, hoffset⟩ := h.exists_offset
  obtain ⟨hstart, hmoved⟩ := h.solves_direction k
  have hover := h.separated.objective
  rw [← hoffset _ hstart, ← hoffset _ hmoved, ← funext (t.complete_update_one k), basicSolution,
    evaluate_complete hover h.proper_objective, evaluate_complete hover h.proper_objective,
    Row.evaluate_update, Row.evaluate_zero]
  ring

end Represents

end Tableau

open Tableau

/-! ## Equations with a common slack -/

/-- The symbols of the equations: a slack, an error for what is too little and one for what is too
much. -/
structure Spokes where
  slack : Nat → Key
  plus : Nat → Key
  minus : Nat → Key

/-- No symbol of an index is that of another one or of another kind. The slack of zero is the common
one. -/
structure Spokes.Distinct (K : Spokes) (I : Finset Nat) : Prop where
  hub : 0 ∉ I
  pivotable : ∀ i, (K.slack i).pivotable = true ∧ (K.plus i).pivotable = true ∧
    (K.minus i).pivotable = true
  slack : ∀ i ∈ insert 0 I, ∀ j ∈ insert 0 I, K.slack i = K.slack j → i = j
  slack_plus : ∀ i j, K.slack i ≠ K.plus j
  slack_minus : ∀ i j, K.slack i ≠ K.minus j

/-- For each index, an equation says that an error makes up for the difference between a slack and
the common one, less the error for the other direction. The errors are all that costs something. -/
structure Star (S : Assignment Rat → Prop) (cost : Assignment Rat → Rat) (I : Finset Nat)
    (K : Spokes) (price : Rat) : Prop where
  distinct : K.Distinct I
  balance : ∀ v, S v → ∀ i ∈ I,
    v (K.minus i) = v (K.slack i) - v (K.slack 0) + v (K.plus i)
  cost_eq : ∀ v, cost v = ∑ i ∈ I, price * (v (K.plus i) + v (K.minus i))
  price_pos : 0 < price

/-- The errors of `J` have left the basis, and the slack of the last one of them, or the common
slack to begin with, is to enter next. -/
structure Spokes.At (K : Spokes) (I J : Finset Nat) (apex : Nat) (t : Tableau Rat) : Prop where
  subset : J ⊆ I
  last : apex ∈ J ∨ apex = 0 ∧ J = ∅
  plus : ∀ i ∈ I, t.isBasic (K.plus i) = false
  minus : ∀ i ∈ J, t.isBasic (K.minus i) = false
  slack : ∀ i ∈ I, i ∉ J → t.isBasic (K.slack i) = false
  free : t.isBasic (K.slack apex) = false
  basic : ∀ k, k.unrestricted = false → k.dummy = false → t.isBasic k = true →
    (∃ i ∈ insert 0 I, k = K.slack i) ∨ ∃ i ∈ I, k = K.minus i

theorem Spokes.At.apex_mem {K : Spokes} {I J : Finset Nat} {apex : Nat} {t : Tableau Rat}
    (hat : K.At I J apex t) : apex ∈ insert 0 I := by
  rcases hat.last with hmem | ⟨rfl, -⟩
  · exact Finset.mem_insert_of_mem (hat.subset hmem)
  · exact Finset.mem_insert_self 0 I

namespace Star

variable {t t' : Tableau Rat} {S : Assignment Rat → Prop} {cost : Assignment Rat → Rat}
  {I J : Finset Nat} {K : Spokes} {price : Rat} {apex i j : Nat} {k leaving : Key} {row : Row Rat}

section Directions

variable (hstar : Star S cost I K price)

include hstar

/-- Errors that are not negative do not cost less than nothing. -/
theorem bounded : Bounded S cost := by
  refine ⟨0, fun v _ hv => ?_⟩
  rw [hstar.cost_eq]
  refine Finset.sum_nonneg fun i _ => mul_nonneg hstar.price_pos.le (add_nonneg ?_ ?_)
  · exact hv _ (Key.unrestricted_of_pivotable (hstar.distinct.pivotable i).2.1)
  · exact hv _ (Key.unrestricted_of_pivotable (hstar.distinct.pivotable i).2.2)

/-- Directions meet the equations. -/
theorem direction_minus (h : t.Represents S cost) (k : Key) (hi : i ∈ I) :
    t.direction k (K.minus i) =
      t.direction k (K.slack i) - t.direction k (K.slack 0) + t.direction k (K.plus i) := by
  obtain ⟨hstart, hmoved⟩ := h.solves_direction k
  have hbefore := hstar.balance _ hstart i hi
  have hafter := hstar.balance _ hmoved i hi
  linarith

/-- The coefficient of a variable in the objective is what the errors change by. -/
theorem coefficientFor_objective (h : t.Represents S cost) (k : Key) :
    t.objective.coefficientFor k =
      ∑ i ∈ I, price * (t.direction k (K.plus i) + t.direction k (K.minus i)) := by
  rw [h.coefficientFor_objective, hstar.cost_eq, hstar.cost_eq, ← Finset.sum_sub_distrib]
  exact Finset.sum_congr rfl fun i _ => by ring

variable (hat : K.At I J apex t)

include hat

/-- A slack whose error is still basic is not the next to enter. -/
theorem slack_ne_apex (hi : i ∈ I) (hJ : i ∉ J) : K.slack i ≠ K.slack apex := by
  intro heq
  rcases hat.last with hmem | ⟨rfl, -⟩
  · have hsame := hstar.distinct.slack i (Finset.mem_insert_of_mem hi) apex
      (Finset.mem_insert_of_mem (hat.subset hmem)) heq
    exact hJ (hsame ▸ hmem)
  · have hsame := hstar.distinct.slack i (Finset.mem_insert_of_mem hi) 0
      (Finset.mem_insert_self 0 I) heq
    exact hstar.distinct.hub (hsame ▸ hi)

/-- Along the slack that is to enter next, the common slack grows at the same rate. -/
theorem direction_hub (h : t.Represents S cost) :
    t.direction (K.slack apex) (K.slack 0) = 1 := by
  have hself := (direction_of_isBasic_eq_false hat.free).trans (if_pos rfl)
  rcases hat.last with hmem | ⟨rfl, -⟩
  · have hI := hat.subset hmem
    have hminus := direction_of_isBasic_eq_false (k := K.slack apex) (hat.minus apex hmem)
    have hplus := direction_of_isBasic_eq_false (k := K.slack apex) (hat.plus apex hI)
    rw [if_neg (hstar.distinct.slack_minus apex apex).symm] at hminus
    rw [if_neg (hstar.distinct.slack_plus apex apex).symm] at hplus
    have hbalance := hstar.direction_minus h (K.slack apex) hI
    linarith
  · exact hself

/-- Along the slack that is to enter next, the errors that are basic fall, and those that are not
stay. -/
theorem direction_errors (h : t.Represents S cost) (hi : i ∈ I) :
    t.direction (K.slack apex) (K.plus i) = 0 ∧
      t.direction (K.slack apex) (K.minus i) = if i ∈ J then 0 else -1 := by
  have hplus := (direction_of_isBasic_eq_false (hat.plus i hi)).trans
    (if_neg (hstar.distinct.slack_plus apex i).symm)
  refine ⟨hplus, ?_⟩
  split
  · next hJ =>
    exact (direction_of_isBasic_eq_false (hat.minus i hJ)).trans
      (if_neg (hstar.distinct.slack_minus apex i).symm)
  · next hJ =>
    have hslack := (direction_of_isBasic_eq_false (hat.slack i hi hJ)).trans
      (if_neg (hstar.slack_ne_apex hat hi hJ))
    rw [hstar.direction_minus h (K.slack apex) hi, hstar.direction_hub hat h, hslack, hplus]
    norm_num

/-- No slack falls along the slack that is to enter next. -/
theorem direction_slack_nonneg (h : t.Represents S cost) (hi : i ∈ insert 0 I) :
    0 ≤ t.direction (K.slack apex) (K.slack i) := by
  rcases Finset.mem_insert.mp hi with rfl | hi
  · rw [hstar.direction_hub hat h]
    norm_num
  · by_cases hJ : i ∈ J
    · obtain ⟨hplus, hminus⟩ := hstar.direction_errors hat h hi
      have hbalance := hstar.direction_minus h (K.slack apex) hi
      rw [if_pos hJ] at hminus
      linarith [hstar.direction_hub hat h]
    · rw [direction_of_isBasic_eq_false (hat.slack i hi hJ),
        if_neg (hstar.slack_ne_apex hat hi hJ)]

/-- The slack that is to enter next makes the objective fall by the price of each basic error. -/
theorem coefficientFor_apex (h : t.Represents S cost) :
    t.objective.coefficientFor (K.slack apex) = -(price * (I \ J).card) := by
  rw [hstar.coefficientFor_objective h, Finset.sum_congr rfl fun i hi => by
    rw [(hstar.direction_errors hat h hi).1, (hstar.direction_errors hat h hi).2, zero_add],
    ← Finset.mul_sum, Finset.sum_ite, Finset.sum_const_zero, zero_add, Finset.sum_const,
    Finset.filter_notMem_eq_sdiff, nsmul_eq_mul]
  ring

/-- If the common slack grows, the errors that are basic fall no faster than it grows. -/
theorem card_mul_le_sum (h : t.Represents S cost) (k : Key) :
    (I \ J).card * -t.direction k (K.slack 0) ≤
      ∑ i ∈ I \ J, (t.direction k (K.plus i) + t.direction k (K.minus i)) := by
  rw [← nsmul_eq_mul]
  refine Finset.card_nsmul_le_sum _ _ _ fun i hi => ?_
  obtain ⟨hI, hJ⟩ := Finset.mem_sdiff.mp hi
  have hplus := direction_nonneg (k := k) (hat.plus i hI)
  have hslack := direction_nonneg (k := k) (hat.slack i hI hJ)
  linarith [hstar.direction_minus h k hI]

/-- No other variable makes the objective fall as fast, and none does when no error is basic. -/
theorem neg_le_coefficientFor (h : t.Represents S cost) (hne : k ≠ K.slack apex) :
    -(price * ((I \ J).card - 1 : Nat)) ≤ t.objective.coefficientFor k := by
  have hapex : t.direction k (K.slack apex) = 0 :=
    (direction_of_isBasic_eq_false hat.free).trans (if_neg hne.symm)
  have hleft : ∀ i ∈ J, 0 ≤ t.direction k (K.plus i) + t.direction k (K.minus i) := fun i hi =>
    add_nonneg (direction_nonneg (hat.plus i (hat.subset hi))) (direction_nonneg (hat.minus i hi))
  have hremaining := hstar.card_mul_le_sum hat h k
  have hcard : (0 : Rat) ≤ ((I \ J).card - 1 : Nat) := Nat.cast_nonneg _
  have hcount : ((I \ J).card : Rat) ≤ ((I \ J).card - 1 : Nat) + 1 := by
    have hle : (I \ J).card ≤ (I \ J).card - 1 + 1 := Nat.sub_le_iff_le_add.mp le_rfl
    exact_mod_cast hle
  have hsum : -(((I \ J).card - 1 : Nat) : Rat) ≤
      ∑ i ∈ I, (t.direction k (K.plus i) + t.direction k (K.minus i)) := by
    rw [← Finset.sum_sdiff hat.subset]
    rcases hat.last with hmem | ⟨rfl, rfl⟩
    · -- If the common slack grows, an error grows that has left the basis
      have hone := Finset.single_le_sum hleft hmem
      have hminus := direction_nonneg (k := k) (hat.minus apex hmem)
      have hfalls : 0 ≤ ((I \ J).card : Rat) * t.direction k (K.minus apex) :=
        mul_nonneg (Nat.cast_nonneg _) hminus
      have hhub : t.direction k (K.slack 0) =
          t.direction k (K.plus apex) - t.direction k (K.minus apex) := by
        linarith [hstar.direction_minus h k (hat.subset hmem)]
      rw [hhub, neg_sub, mul_sub] at hremaining
      have hplus := direction_of_isBasic_eq_false (k := k) (hat.plus apex (hat.subset hmem))
      split at hplus <;> rw [hplus] at hremaining hone <;> linarith
    · rw [hapex, neg_zero, mul_zero] at hremaining
      rw [Finset.sum_empty]
      linarith
  rw [hstar.coefficientFor_objective h, ← Finset.mul_sum, ← mul_neg]
  exact mul_le_mul_of_nonneg_left hsum hstar.price_pos.le

end Directions

/-! ## Pivots -/

section Pivots

variable (hstar : Star S cost I K price) (hat : K.At I J apex t)
  (h : t.Prepared True True S cost)

include hstar hat h

/-- The slack that is to enter next does so, as long as there are basic errors. -/
theorem entering?_eq (hJ : (I \ J).Nonempty) :
    t.entering? t.objective = some (K.slack apex) := by
  have hr := h.represents
  have hcard : (0 : Rat) < (I \ J).card := Nat.cast_pos.mpr (Finset.card_pos.mpr hJ)
  refine entering?_eq_some_of_lt (h.epsilon trivial) (hstar.distinct.pivotable apex).1 ?_
    fun k _ hne => ?_
  · rw [hstar.coefficientFor_apex hat hr]
    exact neg_neg_of_pos (mul_pos hstar.price_pos hcard)
  · rw [hstar.coefficientFor_apex hat hr]
    refine lt_of_lt_of_le (neg_lt_neg ?_) (hstar.neg_le_coefficientFor hat hr hne)
    refine mul_lt_mul_of_pos_left ?_ hstar.price_pos
    exact Nat.cast_lt.mpr (Nat.sub_one_lt (Finset.card_pos.mpr hJ).ne')

/-- When no error is basic any more, the objective is optimal. -/
theorem minimal (hJ : I \ J = ∅) : t.objective.Minimal := by
  have hr := h.represents
  intro k _
  by_cases heq : k = K.slack apex
  · rw [heq, hstar.coefficientFor_apex hat hr, hJ]
    simp
  · simpa [hJ] using hstar.neg_le_coefficientFor hat hr heq

/-- The row that leaves is that of a basic error. -/
theorem leaving_eq (hleaving : t.leaving? (K.slack apex) = some leaving) :
    ∃ i ∈ I \ J, leaving = K.minus i := by
  have hr := h.represents
  obtain ⟨row, hrow, hrestricted, hneg⟩ := leaving?_eq_some hleaving
  have hbasic := isBasic_of_get? hrow
  have hdummy : leaving.dummy = false := Bool.eq_false_iff.mpr fun hdummy => by
    have hidle := (h.idle trivial trivial leaving row hrow hdummy).2 _ hneg.ne
    rw [Key.dummy_of_pivotable (hstar.distinct.pivotable apex).1] at hidle
    cases hidle
  rw [← direction_of_get? hrow] at hneg
  rcases hat.basic leaving hrestricted hdummy hbasic with ⟨i, hi, rfl⟩ | ⟨i, hi, rfl⟩
  · exact absurd hneg (not_lt.mpr (hstar.direction_slack_nonneg hat hr hi))
  · refine ⟨i, Finset.mem_sdiff.mpr ⟨hi, fun hJ => ?_⟩, rfl⟩
    rw [hat.minus i hJ] at hbasic
    cases hbasic

/-- A pivot drives one more error out, and the slack of its equation is the next to enter. -/
theorem pivot (hleaving : t.leaving? (K.slack apex) = some leaving) :
    ∃ i ∈ I \ J, K.At I (insert i J) i (t.pivot (K.slack apex) leaving) := by
  obtain ⟨i, hi, rfl⟩ := hstar.leaving_eq hat h hleaving
  obtain ⟨hI, hJ⟩ := Finset.mem_sdiff.mp hi
  obtain ⟨row, hrow, -⟩ := leaving?_eq_some hleaving
  have hbasic : ∀ b, (t.pivot (K.slack apex) (K.minus i)).isBasic b = _ := isBasic_pivot hrow
  have hkept : ∀ b, b ≠ K.slack apex → t.isBasic b = false →
      (t.pivot (K.slack apex) (K.minus i)).isBasic b = false := fun b hne hb => by
    rw [hbasic, hb, decide_eq_false hne, Bool.and_false, Bool.or_false]
  refine ⟨i, hi, Finset.insert_subset hI hat.subset, .inl (Finset.mem_insert_self i J), ?_, ?_, ?_,
    ?_, ?_⟩
  · exact fun j hj => hkept _ (hstar.distinct.slack_plus apex j).symm (hat.plus j hj)
  · intro j hj
    rcases Finset.mem_insert.mp hj with rfl | hj
    · rw [hbasic, decide_eq_false (hstar.distinct.slack_minus apex j).symm, Bool.false_or,
        decide_eq_false (not_not.mpr rfl), Bool.false_and]
    · exact hkept _ (hstar.distinct.slack_minus apex j).symm (hat.minus j hj)
  · intro j hj hnot
    have hnot := fun hmem => hnot (Finset.mem_insert_of_mem hmem)
    exact hkept _ (hstar.slack_ne_apex hat hj hnot) (hat.slack j hj hnot)
  · exact hkept _ (hstar.slack_ne_apex hat hI hJ) (hat.slack i hI hJ)
  · intro k hk hdummy hb
    rw [hbasic, Bool.or_eq_true, Bool.and_eq_true] at hb
    rcases hb with heq | ⟨-, hb⟩
    · exact .inl ⟨apex, hat.apex_mem, of_decide_eq_true heq⟩
    · exact hat.basic k hk hdummy hb

end Pivots

/-! ## Solving -/

/-- The primal method makes no more pivots than there are equations. -/
theorem ensures_optimize (hstar : Star S cost I K price) (hat : K.At I ∅ 0 t)
    (h : t.Prepared True True S cost) (hfeasible : t.Feasible) (hlimit : I.card ≤ t.maxIterations) :
    Ensures (optimize .objective) t (fun _ t' => t'.Prepared True True S cost ∧ t'.Feasible)
      fun _ _ => False := by
  -- The equations whose errors are basic count down
  refine ensures_iterate_of_countdown (P := fun n t => (t.Prepared True True S cost ∧ t.Feasible) ∧
    ∃ J apex, K.At I J apex t ∧ (I \ J).card = n) ?_ ?_ ?_ (n := I.card)
    ⟨⟨h, hfeasible⟩, ∅, 0, hat, by rw [Finset.sdiff_empty]⟩ hlimit
  · rintro n t t' ⟨hkept, -⟩ hrule
    exact (primalRule_finished hrule).1 ▸ hkept
  · rintro n t t' cause ⟨⟨h, hfeasible⟩, -⟩ hrule
    obtain ⟨x, hmeasures⟩ := h.represents.exists_measures
    exact not_bounded_of_impossible h.represents (h.epsilon trivial) hfeasible hmeasures hrule
      (hstar.bounded.add_const x)
  · rintro n t t' entering leaving ⟨⟨h, hfeasible⟩, J, apex, hat, rfl⟩ hrule
    obtain ⟨rfl, goal, hgoal, hentering, hleaving⟩ := primalRule_pivot hrule
    cases hgoal
    obtain ⟨hpivotable, hneg⟩ := entering?_eq_some_rat hentering
    obtain ⟨row, hrow, hrestricted, hcoefficient⟩ := leaving?_eq_some hleaving
    rcases (I \ J).eq_empty_or_nonempty with hempty | hJ
    · rw [h.epsilon trivial, neg_zero] at hneg
      exact absurd (hstar.minimal hat h hempty entering hpivotable) hneg
    · cases hentering.symm.trans (hstar.entering?_eq hat h hJ)
      obtain ⟨i, hi, hat'⟩ := hstar.pivot hat h hleaving
      refine ⟨(I \ insert i J).card, ?_, ⟨h.pivot hrow hcoefficient.ne hpivotable hrestricted,
        hfeasible.pivot h.represents.separated.eliminated hleaving⟩, _, _, hat', rfl⟩
      rw [Finset.sdiff_insert, Finset.card_erase_add_one hi]

/-- Solving succeeds if as many pivots are allowed as there are equations. -/
theorem ensures_solve (hstar : Star S cost I K price) (hat : K.At I ∅ 0 t)
    (h : t.Prepared True True S cost) (hfeasible : t.Feasible) (hlimit : I.card ≤ t.maxIterations) :
    Ensures solve t (fun _ _ => True) fun _ _ => False := by
  unfold solve
  rw [ensures_bind]
  refine (hstar.ensures_optimize hat h hfeasible hlimit).imp ?_ fun _ _ => id
  rintro _ t' ⟨h', hfeasible'⟩
  have hrule : dualRule t' = (.finished, { t' with infeasible := [] }) := by
    unfold dualRule
    rw [h'.nextViolated_eq_none trivial hfeasible']
  rw [ensures_bind]
  unfold Ensures dualOptimize
  rw [iterate_of_finished hrule]
  trivial

end Star

end Cassowary
