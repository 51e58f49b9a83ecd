import Cassowary.Proofs.Canonical

/-!
# What comparisons of formulas say

A comparison is written with formulas, and a layout is solved with the constraint that it comes to.
The two say the same, as long as no coefficient has nearly cancelled. A strict comparison is the
exception: a constraint has no strict relation, so it asks for a margin that grows with the
coefficients. Whatever keeps the margin meets the strict comparison.

The coefficient of a variable is read off the formula as it is written, without its linear form.

## Main definitions

* `Formula.coefficientFor` — the coefficient of a variable in a formula
* `Formula.Apart` — formulas in whose difference no coefficient has nearly cancelled
* `Comparison.HoldsBy` — a comparison, with a margin if it is strict

## Main results

* `Constraint.cleared_linear_iff` — coefficients of the formulas and of their merged terms
* `Constraint.value_reduce_less`, `Constraint.value_reduce_greater` — what a margin adds to the
  value
* `Constraint.holds_ofFormulas_iff` — a constraint holds where the written comparison does
-/

namespace Cassowary

/-! ## Coefficients of formulas -/

namespace Formula

/-- The coefficient of a variable in a formula. -/
def coefficientFor (k : Key) : Formula Rat → Rat
  | number _ => 0
  | var x => if x.key = k then 1 else 0
  | term t => if t.var.key = k then t.coefficient else 0
  | form e => e.coefficientFor k
  | add a b => a.coefficientFor k + b.coefficientFor k
  | sub a b => a.coefficientFor k - b.coefficientFor k
  | neg a => -a.coefficientFor k
  | scale a factor => a.coefficientFor k * factor
  | divide a divisor => a.coefficientFor k / divisor

/-- In the difference of two formulas each variable has cancelled, or its coefficient is large
enough for a term. -/
def Apart (a b : Formula Rat) : Prop :=
  ∀ k : Key, k.unrestricted = true → a.coefficientFor k = b.coefficientFor k ∨
    Constraint.zeroTerm < |a.coefficientFor k - b.coefficientFor k|

end Formula

namespace LinearForm

variable (a b e : LinearForm Rat) (k : Key)

@[simp] theorem coefficientFor_ofNumber (c : Rat) : (ofNumber c).coefficientFor k = 0 := rfl

@[simp] theorem coefficientFor_ofTerm (t : Term Variable Rat) :
    (ofTerm t).coefficientFor k = if t.var.key = k then t.coefficient else 0 := by
  simp [ofTerm, coefficientFor]

@[simp] theorem coefficientFor_add :
    (a + b).coefficientFor k = a.coefficientFor k + b.coefficientFor k :=
  Constraint.together_append _ _ k

@[simp] theorem coefficientFor_scaled (factor : Rat) :
    (e.scaled factor).coefficientFor k = e.coefficientFor k * factor :=
  Constraint.together_scaled _ _ k

@[simp] theorem coefficientFor_neg : (-a).coefficientFor k = -a.coefficientFor k := by
  show (a.scaled (-1)).coefficientFor k = _
  rw [coefficientFor_scaled, mul_neg_one]

@[simp] theorem coefficientFor_sub :
    (a - b).coefficientFor k = a.coefficientFor k - b.coefficientFor k := by
  show (a + -b).coefficientFor k = _
  rw [coefficientFor_add, coefficientFor_neg, sub_eq_add_neg]

end LinearForm

/-- The linear form of a formula has its coefficients. -/
theorem Formula.coefficientFor_linear (f : Formula Rat) (k : Key) :
    f.linear.coefficientFor k = f.coefficientFor k := by
  induction f with
  | number c => simp [linear, coefficientFor]
  | var x => simp [linear, coefficientFor, Term.unit]
  | term t => simp [linear, coefficientFor]
  | form e => rfl
  | add a b iha ihb => simp [linear, coefficientFor, iha, ihb]
  | sub a b iha ihb => simp [linear, coefficientFor, iha, ihb]
  | neg a ih => simp [linear, coefficientFor, ih]
  | scale a factor ih => simp [linear, coefficientFor, ih]
  | divide a divisor ih => simp [linear, coefficientFor, ih, div_eq_mul_inv]

/-! ## Comparisons with a margin -/

/-- Whether two numbers compare as asked for, and differ by a margin where they must not be the
same. -/
def Comparison.HoldsBy (margin : Rat) : Comparison → Rat → Rat → Prop
  | equal, a, b => a = b
  | less, a, b => a + margin ≤ b
  | greater, a, b => b + margin ≤ a
  | lessOrEqual, a, b => a ≤ b
  | greaterOrEqual, a, b => b ≤ a

/-- What holds with a margin holds. -/
theorem Comparison.HoldsBy.holds {margin x y : Rat} (hmargin : 0 < margin) {comparison : Comparison}
    (h : comparison.HoldsBy margin x y) : comparison.Holds x y := by
  cases comparison with
  | equal => exact h
  | lessOrEqual => exact h
  | greaterOrEqual => exact h
  | less => exact (lt_add_of_pos_right x hmargin).trans_le h
  | greater => exact (lt_add_of_pos_right y hmargin).trans_le h

namespace Constraint

variable {a b : LinearForm Rat} {v : Assignment Rat}

/-- A coefficient of a merged term is the difference of the coefficients of both sides. -/
theorem cleared_linear_iff {a b : Formula Rat} : Cleared a.linear b.linear ↔ a.Apart b := by
  have hdifference : ∀ k : Key, k.unrestricted = true →
      ((merged (gathered a.linear b.linear)).get? k).getD 0 =
        a.coefficientFor k - b.coefficientFor k := by
    intro k hk
    rw [getD_get?_merged hk, together_gathered, a.coefficientFor_linear, b.coefficientFor_linear]
  constructor
  · intro hclear k hk
    have hsum := hdifference k hk
    cases hget : (merged (gathered a.linear b.linear)).get? k with
    | none =>
      rw [hget, Option.getD_none] at hsum
      exact .inl (sub_eq_zero.mp hsum.symm)
    | some sum =>
      rw [hget, Option.getD_some] at hsum
      rw [← hsum]
      exact (hclear k sum hget).imp_left fun hzero => sub_eq_zero.mp (hsum.symm.trans hzero)
  · intro hapart k sum hget
    have hk := unrestricted_of_get?_merged hget
    have hsum := hdifference k hk
    rw [hget, Option.getD_some] at hsum
    rw [hsum]
    exact (hapart k hk).imp_left sub_eq_zero.mpr

/-! ## Reduced comparisons -/

theorem margin_pos (terms : List (Term Key Rat)) : 0 < margin terms := by
  rw [margin_eq]
  exact lt_max_of_lt_left (by norm_num)

/-- The margin of a constraint is that of its terms, whatever their sign. -/
theorem margin_terms_reduce (a b : LinearForm Rat) (comparison : Comparison) :
    margin (reduce a comparison b).terms = margin (ordered (merged (gathered a b))) := by
  obtain ⟨sign, hsign, hterms⟩ := exists_terms_reduce a b comparison
  rw [margin_eq, margin_eq, hterms, List.map_map]
  refine congrArg (fun sizes => max 1e-7 (1e-8 * max 1 (List.sum sizes))) ?_
  apply List.map_congr_left
  intro t _
  show |t.coefficient * sign| = |t.coefficient|
  rw [abs_mul, hsign, mul_one]

/-- A strict comparison adds its margin to what the other one compares with zero. -/
theorem value_reduce_less : (reduce a .less b).value v =
    (reduce a .equal b).value v + margin (ordered (merged (gathered a b))) :=
  (add_assoc _ _ _).symm

theorem value_reduce_greater : (reduce a .greater b).value v =
    (reduce a .greaterOrEqual b).value v + margin (ordered (merged (gathered a b))) := by
  have hterms : (reduce a .greater b).terms = (reduce a .greaterOrEqual b).terms := rfl
  rw [value, value, hterms]
  show _ + -(gatheredConstant a b - _) = _ + -gatheredConstant a b + _
  ring

/-- Where nothing has nearly cancelled, a reduced constraint holds just if the comparison does, with
its margin if it is strict. -/
theorem holds_reduce_iff (hclear : Cleared a b) (comparison : Comparison) :
    (reduce a comparison b).Holds v ↔
      comparison.HoldsBy (margin (reduce a comparison b).terms) (a.value v) (b.value v) := by
  rw [margin_terms_reduce]
  cases comparison with
  | equal => exact holds_reduce_equal hclear
  | greaterOrEqual => exact holds_reduce_greaterOrEqual hclear
  | lessOrEqual =>
    show (reduce a .equal b).value v ≤ 0 ↔ a.value v ≤ b.value v
    rw [value_reduce_equal hclear, sub_nonpos]
  | less =>
    show (reduce a .less b).value v ≤ 0 ↔ a.value v + _ ≤ b.value v
    rw [value_reduce_less, value_reduce_equal hclear]
    constructor <;> intro h <;> linarith
  | greater =>
    show (reduce a .greater b).value v ≤ 0 ↔ b.value v + _ ≤ a.value v
    rw [value_reduce_greater, value_reduce_greaterOrEqual hclear]
    constructor <;> intro h <;> linarith

/-- The constraint of a comparison of formulas holds where the comparison does. A strict one asks
for a margin, so that whatever meets the constraint meets the strict comparison. -/
theorem holds_ofFormulas_iff (a b : Formula Rat) (comparison : Comparison) (v : Assignment Rat)
    (hapart : a.Apart b) :
    ((ofFormulas a comparison b).Holds v ↔ comparison.HoldsBy
      (max 1e-7 (1e-8 * max 1
        ((ofFormulas a comparison b).terms.map fun t => |t.coefficient|).sum))
      (a.value v) (b.value v)) ∧
    ((ofFormulas a comparison b).Holds v → comparison.Holds (a.value v) (b.value v)) := by
  have hiff : (ofFormulas a comparison b).Holds v ↔ comparison.HoldsBy
      (margin (ofFormulas a comparison b).terms) (a.value v) (b.value v) := by
    rw [ofFormulas, holds_reduce_iff (cleared_linear_iff.mpr hapart), a.value_linear, b.value_linear]
  rw [← margin_eq]
  exact ⟨hiff, fun h => (hiff.mp h).holds (margin_pos _)⟩

/-- In `(v0 - l0) / 4 * 400 < v1 + 1` the coefficients come to 201, so its margin is `2.01e-6`. -/
theorem holds_ofFormulas_iff_of_large :
    let a := Formula.scale (.divide (.sub (.var (.external 0)) (.var (.localAux 0))) 4) 400
    let b := Formula.add (.var (.external 1)) (.var ⟨.ofIndex .constant false 0, .inr rfl⟩)
    a.Apart b ∧ ∀ v : Assignment Rat,
      ((ofFormulas a .less b).Holds v ↔ a.value v + 2.01e-6 ≤ b.value v) ∧
      ((ofFormulas a .less b).Holds v → a.value v < b.value v) := by
  intro a b
  have hlinear : a.linear.terms = [⟨.external 0, 100⟩, ⟨.localAux 0, -100⟩] := by decide +kernel
  have ha : a.Whole := by
    intro t ht
    rw [hlinear] at ht
    simp only [List.mem_cons, List.not_mem_nil, or_false] at ht
    rcases ht with rfl | rfl
    · exact ⟨100, by norm_num⟩
    · exact ⟨-100, by norm_num⟩
  have hb : b.Whole := by simp [b]
  have hapart : a.Apart b := cleared_linear_iff.mp (cleared_of_whole ha hb)
  have hterms : (ofFormulas a .less b).terms = [⟨(Variable.external 0).key, 100⟩,
      ⟨(Variable.external 1).key, -1⟩, ⟨(Variable.localAux 0).key, -100⟩] := by decide +kernel
  have hmargin : max 1e-7 (1e-8 * max 1
      ((ofFormulas a .less b).terms.map fun t => |t.coefficient|).sum) = (2.01e-6 : Rat) := by
    rw [hterms]
    norm_num
  refine ⟨hapart, fun v => ?_⟩
  have h := holds_ofFormulas_iff a b .less v hapart
  rwa [hmargin] at h

end Constraint

end Cassowary
