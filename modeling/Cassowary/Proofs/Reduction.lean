import Mathlib.Tactic.Linarith
import Mathlib.Tactic.NormNum
import Mathlib.Tactic.Ring
import Cassowary.Proofs.Row
import Cassowary.Semantics

/-!
# What written constraints say

A constraint is written with formulas. Reducing it gathers the terms of both sides, merges those of
each variable, and leaves out what has cancelled. What is left says what was written, unless a
coefficient has nearly cancelled: such a term is left out although it is not zero. Coefficients that
are whole numbers cannot nearly cancel.

## Main definitions

* `LinearForm.Whole`, `Formula.Whole` — linear forms and formulas with whole coefficients
* `Constraint.Cleared` — whatever nearly cancels cancels

## Main results

* `Formula.value_linear` — the linear form of a formula has its value
* `Constraint.value_reduce_equal`, `Constraint.holds_reduce_equal` — what a reduced constraint says
* `Constraint.cleared_of_whole` — whole coefficients cancel or do not
* `Constraint.holds_ofFormulas_equal`, `Constraint.holds_ofFormulas_greaterOrEqual` — comparisons of
  formulas with whole coefficients
-/

namespace Cassowary

variable {v : Assignment Rat}

/-! ## Formulas -/

namespace LinearForm

variable (a b e : LinearForm Rat)

@[simp] theorem value_ofNumber (c : Rat) : (ofNumber c).value v = c := by
  simp [ofNumber, value]

@[simp] theorem value_ofTerm (t : Term Variable Rat) :
    (ofTerm t).value v = t.coefficient * v.valueOf t.var := by
  simp [ofTerm, value]

@[simp] theorem value_add : (a + b).value v = a.value v + b.value v := by
  have hterms : (a + b).terms = a.terms ++ b.terms := rfl
  have hconstant : (a + b).constant = a.constant + b.constant := rfl
  rw [value, value, value, hterms, hconstant, List.map_append, List.sum_append]
  ring

@[simp] theorem value_scaled (factor : Rat) : (e.scaled factor).value v = e.value v * factor := by
  have hterms : (e.scaled factor).terms.map (fun t => t.coefficient * v.valueOf t.var) =
      e.terms.map fun t => t.coefficient * v.valueOf t.var * factor := by
    rw [scaled, List.map_map]
    apply List.map_congr_left
    intro t _
    show t.coefficient * factor * v.valueOf t.var = _
    ring
  rw [value, value, hterms, List.sum_map_mul_right]
  show _ + e.constant * factor = _
  ring

@[simp] theorem value_neg : (-a).value v = -a.value v := by
  show (a.scaled (-1)).value v = _
  rw [value_scaled]
  ring

@[simp] theorem value_sub : (a - b).value v = a.value v - b.value v := by
  show (a + -b).value v = _
  rw [value_add, value_neg]
  ring

end LinearForm

/-- A formula has the value of its linear form. -/
theorem Formula.value_linear (f : Formula Rat) : f.linear.value v = f.value v := by
  induction f with
  | number c => simp [linear, value]
  | var x => simp [linear, value, Term.unit]
  | term t => simp [linear, value]
  | form e => rfl
  | add a b iha ihb => simp [linear, value, iha, ihb]
  | sub a b iha ihb => simp [linear, value, iha, ihb]
  | neg a ih => simp [linear, value, ih]
  | scale a factor ih => simp [linear, value, ih]
  | divide a divisor ih => simp [linear, value, ih, div_eq_mul_inv]

/-! ## Sums over merged terms -/

/-- The value of a table of coefficients. -/
def Table.total (sums : Table Key Rat) (v : Assignment Rat) : Rat :=
  (sums.entries.map fun e => e.2 * v e.1).sum

namespace Constraint

variable {lhs rhs : LinearForm Rat} {terms : List (Term Variable Rat)} {sums : Table Key Rat}

theorem total_alter_add (sums : Table Key Rat) (k : Key) (a : Rat) :
    (sums.alter k fun sum => some (sum.getD 0 + a)).total v = sums.total v + a * v k := by
  obtain ⟨l, hl⟩ := sums
  simp only [Table.total, Table.alter]
  clear hl
  induction l with
  | nil => simp [Table.alterEntries]
  | cons e rest ih =>
    simp only [Table.alterEntries]
    split
    · next hk =>
      subst hk
      simp only [Option.getD_some, List.map_cons, List.sum_cons]
      ring
    · simp only [List.map_cons, List.sum_cons, ih]
      ring

/-- To merge terms does not change their sum. -/
theorem total_foldl_alter (terms : List (Term Variable Rat)) (sums : Table Key Rat) :
    (terms.foldl (fun sums t => sums.alter t.var.key fun sum =>
      some (sum.getD 0 + t.coefficient)) sums).total v =
        sums.total v + (terms.map fun t => t.coefficient * v t.var.key).sum := by
  induction terms generalizing sums with
  | nil => simp
  | cons t terms ih =>
    rw [List.foldl_cons, ih, total_alter_add, List.map_cons, List.sum_cons]
    ring

theorem total_merged (terms : List (Term Variable Rat)) :
    (merged terms).total v =
      ((terms.filter (·.var.key.unrestricted)).map fun t => t.coefficient * v t.var.key).sum := by
  rw [merged, total_foldl_alter]
  exact zero_add _

/-- What holds of every sum on the way holds of the merged ones. -/
theorem forall_get?_foldl_alter {P : Key → Rat → Prop}
    (hstep : ∀ t ∈ terms, ∀ a, a = 0 ∨ P t.var.key a → P t.var.key (a + t.coefficient))
    (hsums : ∀ k a, sums.get? k = some a → P k a) :
    ∀ k a, (terms.foldl (fun sums t => sums.alter t.var.key fun sum =>
      some (sum.getD 0 + t.coefficient)) sums).get? k = some a → P k a := by
  induction terms generalizing sums with
  | nil => exact hsums
  | cons t terms ih =>
    obtain ⟨hfirst, hrest⟩ := List.forall_mem_cons.mp hstep
    apply ih hrest
    intro k a ha
    by_cases hk : k = t.var.key
    · subst hk
      rw [Table.get?_alter_self, Option.some_inj] at ha
      subst ha
      apply hfirst
      cases hsum : sums.get? t.var.key with
      | none => exact .inl rfl
      | some b => exact .inr (hsums _ _ hsum)
    · rw [Table.get?_alter_of_ne _ _ hk] at ha
      exact hsums k a ha

/-- Only layout variables are merged. -/
theorem unrestricted_of_get?_merged {k : Key} {a : Rat} (h : (merged terms).get? k = some a) :
    k.unrestricted = true :=
  forall_get?_foldl_alter (P := fun k _ => k.unrestricted = true)
    (fun _ ht _ _ => (List.mem_filter.mp ht).2) (fun _ _ hnone => by cases hnone) k a h

/-! ## Reduced constraints -/

/-- Whatever nearly cancels cancels. -/
def Cleared (lhs rhs : LinearForm Rat) : Prop :=
  ∀ k a, (merged (gathered lhs rhs)).get? k = some a → a = 0 ∨ zeroTerm < |a|

/-- Where only zeros are left out, the terms keep their sum. -/
theorem sum_ordered (hlayout : ∀ e ∈ sums.entries, e.1.unrestricted = true)
    (hclear : ∀ e ∈ sums.entries, e.2 = 0 ∨ zeroTerm < |e.2|) :
    ((ordered sums).map fun t => t.coefficient * v t.var).sum = sums.total v := by
  obtain ⟨l, hl⟩ := sums
  simp only [ordered, Table.total, List.flatMap_cons, List.flatMap_nil, List.append_nil,
    List.map_append, List.sum_append, List.map_map, Scalar.magnitude_rat] at hlayout hclear ⊢
  clear hl
  induction l with
  | nil => simp
  | cons e rest ih =>
    obtain ⟨hkind, hlayout⟩ := List.forall_mem_cons.mp hlayout
    obtain ⟨hsize, hclear⟩ := List.forall_mem_cons.mp hclear
    have ih := ih hlayout hclear
    have hcases : e.1.kind = .external ∨ e.1.kind = .localAux ∨ e.1.kind = .globalAux := by
      revert hkind
      unfold Key.unrestricted
      cases e.1.kind <;> simp [Kind.unrestricted]
    rw [List.map_cons, List.sum_cons, ← ih]
    rcases hsize with hzero | hsize
    · have hnot : ¬ (zeroTerm : Rat) < 0 := by norm_num [zeroTerm]
      simp [hnot, hzero]
    · rcases hcases with hkind | hkind | hkind <;> simp [hkind, hsize] <;> ring

/-- What does not stand in the terms stands in the constant. -/
theorem gatheredConstant_eq (lhs rhs : LinearForm Rat) :
    gatheredConstant lhs rhs = lhs.constant - rhs.constant +
      (((gathered lhs rhs).filter (·.var.key.kind = .constant)).map (·.coefficient)).sum := by
  have hfold : ∀ (l : List (Term Variable Rat)) (a : Rat),
      l.foldl (fun sum t => sum + t.coefficient) a = a + (l.map (·.coefficient)).sum := by
    intro l
    induction l with
    | nil => simp
    | cons t l ih =>
      intro a
      rw [List.foldl_cons, ih, List.map_cons, List.sum_cons]
      ring
  exact hfold _ _

/-- Both parts of the gathered terms together are the difference of the two sides. -/
theorem sum_gathered (lhs rhs : LinearForm Rat) :
    ((merged (gathered lhs rhs)).total v) + gatheredConstant lhs rhs = lhs.value v - rhs.value v := by
  have hsplit : ∀ terms : List (Term Variable Rat),
      ((terms.filter (·.var.key.unrestricted)).map fun t => t.coefficient * v t.var.key).sum +
        ((terms.filter (·.var.key.kind = .constant)).map (·.coefficient)).sum =
          (terms.map fun t => t.coefficient * v.valueOf t.var).sum := by
    intro terms
    induction terms with
    | nil => simp
    | cons t terms ih =>
      rw [List.map_cons, List.sum_cons, ← ih]
      rcases t.var.mentionable with hfree | hconstant
      · have hnot : ¬ t.var.key.kind = .constant := by
          intro hkind
          rw [Key.unrestricted, hkind] at hfree
          cases hfree
        simp [hfree, hnot, Assignment.valueOf]
        ring
      · have hnot : t.var.key.unrestricted = false := by rw [Key.unrestricted, hconstant]; rfl
        simp [hnot, hconstant, Assignment.valueOf]
        ring
  have hrhs : (gathered lhs rhs).map (fun t => t.coefficient * v.valueOf t.var) =
      lhs.terms.map (fun t => t.coefficient * v.valueOf t.var) ++
        (-rhs).terms.map fun t => t.coefficient * v.valueOf t.var := List.map_append
  rw [total_merged, gatheredConstant_eq, add_comm (lhs.constant - rhs.constant), ← add_assoc,
    hsplit, hrhs, List.sum_append]
  have hneg := LinearForm.value_neg (v := v) rhs
  unfold LinearForm.value at hneg ⊢
  have hconstant : (-rhs).constant = -rhs.constant := by
    show rhs.constant * -1 = _
    ring
  rw [hconstant] at hneg
  linarith

variable (hclear : Cleared lhs rhs)
include hclear

theorem sum_ordered_gathered :
    ((ordered (merged (gathered lhs rhs))).map fun t => t.coefficient * v t.var).sum +
      gatheredConstant lhs rhs = lhs.value v - rhs.value v := by
  rw [← sum_gathered, sum_ordered]
  · exact fun e he => unrestricted_of_get?_merged (Table.get?_eq_some_iff.mpr he)
  · exact fun e he => hclear e.1 e.2 (Table.get?_eq_some_iff.mpr he)

theorem value_reduce_equal : (reduce lhs .equal rhs).value v = lhs.value v - rhs.value v :=
  sum_ordered_gathered hclear

theorem value_reduce_greaterOrEqual :
    (reduce lhs .greaterOrEqual rhs).value v = rhs.value v - lhs.value v := by
  have hneg : (((ordered (merged (gathered lhs rhs))).map (-·)).map fun t : Term Key Rat =>
      t.coefficient * v t.var) = (ordered (merged (gathered lhs rhs))).map fun t =>
        -1 * (t.coefficient * v t.var) := by
    rw [List.map_map]
    apply List.map_congr_left
    intro t _
    show t.coefficient * -1 * v t.var = _
    ring
  have hsum := sum_ordered_gathered (v := v) hclear
  show ((((ordered (merged (gathered lhs rhs))).map (-·)).map fun t : Term Key Rat =>
    t.coefficient * v t.var).sum + -gatheredConstant lhs rhs) = _
  rw [hneg, List.sum_map_mul_left]
  linarith

/-- A reduced constraint that is not strict holds where the comparison does. -/
theorem holds_reduce_equal : (reduce lhs .equal rhs).Holds v ↔ lhs.value v = rhs.value v := by
  show (reduce lhs .equal rhs).value v = 0 ↔ _
  rw [value_reduce_equal hclear, sub_eq_zero]

theorem holds_reduce_greaterOrEqual :
    (reduce lhs .greaterOrEqual rhs).Holds v ↔ rhs.value v ≤ lhs.value v := by
  show (reduce lhs .greaterOrEqual rhs).value v ≤ 0 ↔ _
  rw [value_reduce_greaterOrEqual hclear, sub_nonpos]

/-- An equality is missed by the distance of its sides. -/
theorem violation_reduce_equal :
    (reduce lhs .equal rhs).violation v = |lhs.value v - rhs.value v| := by
  show Scalar.magnitude ((reduce lhs .equal rhs).value v) = _
  rw [Scalar.magnitude_rat, value_reduce_equal hclear]

end Constraint

/-! ## Whole coefficients -/

/-- All coefficients are whole numbers. -/
def LinearForm.Whole (e : LinearForm Rat) : Prop := ∀ t ∈ e.terms, ∃ z : Int, t.coefficient = z

/-- Whole numbers that are not zero are far from it. -/
theorem Constraint.cleared_of_whole {lhs rhs : LinearForm Rat} (hlhs : lhs.Whole)
    (hrhs : rhs.Whole) : Cleared lhs rhs := by
  have hwhole : ∀ t ∈ gathered lhs rhs, ∃ z : Int, t.coefficient = z := by
    intro t ht
    rcases List.mem_append.mp ht with ht | ht
    · exact hlhs t ht
    · obtain ⟨t', ht', rfl⟩ := List.mem_map.mp ht
      obtain ⟨z, hz⟩ := hrhs t' ht'
      refine ⟨-z, ?_⟩
      show t'.coefficient * -1 = _
      rw [hz]
      push_cast
      ring
  have hmerged : ∀ k a, (merged (gathered lhs rhs)).get? k = some a → ∃ z : Int, a = z := by
    refine forall_get?_foldl_alter (P := fun _ a => ∃ z : Int, a = z) (fun t ht a ha => ?_)
      fun _ _ hnone => by cases hnone
    obtain ⟨z, hz⟩ := hwhole t (List.mem_of_mem_filter ht)
    rcases ha with rfl | ⟨z', rfl⟩
    · exact ⟨z, by rw [hz, zero_add]⟩
    · exact ⟨z' + z, by rw [hz, Int.cast_add]⟩
  intro k a ha
  obtain ⟨z, rfl⟩ := hmerged k a ha
  rcases eq_or_ne z 0 with rfl | hz
  · exact .inl Int.cast_zero
  · right
    have hone : (1 : Rat) ≤ |(z : Rat)| := by
      rw [← Int.cast_abs]
      exact_mod_cast Int.one_le_abs hz
    have hsmall : (zeroTerm : Rat) < 1 := by norm_num [zeroTerm]
    exact hsmall.trans_le hone

namespace Formula

/-- All coefficients are whole numbers when the terms are listed. -/
def Whole (f : Formula Rat) : Prop := f.linear.Whole

variable {a b : Formula Rat}

@[simp] theorem whole_number (c : Rat) : (number c).Whole := fun _ ht => (List.not_mem_nil ht).elim

@[simp] theorem whole_var (x : Variable) : (var x : Formula Rat).Whole := by
  intro t ht
  rw [List.mem_singleton.mp ht]
  exact ⟨1, Int.cast_one.symm⟩

@[simp] theorem whole_add : (add a b).Whole ↔ a.Whole ∧ b.Whole := List.forall_mem_append

end Formula

namespace Constraint

variable {a b : Formula Rat} (ha : a.Whole) (hb : b.Whole)
include ha hb

theorem value_ofFormulas_equal : (ofFormulas a .equal b).value v = a.value v - b.value v := by
  rw [ofFormulas, value_reduce_equal (cleared_of_whole ha hb), a.value_linear, b.value_linear]

theorem value_ofFormulas_greaterOrEqual :
    (ofFormulas a .greaterOrEqual b).value v = b.value v - a.value v := by
  rw [ofFormulas, value_reduce_greaterOrEqual (cleared_of_whole ha hb), a.value_linear,
    b.value_linear]

theorem holds_ofFormulas_equal : (ofFormulas a .equal b).Holds v ↔ a.value v = b.value v := by
  rw [ofFormulas, holds_reduce_equal (cleared_of_whole ha hb), a.value_linear, b.value_linear]

theorem holds_ofFormulas_greaterOrEqual :
    (ofFormulas a .greaterOrEqual b).Holds v ↔ b.value v ≤ a.value v := by
  rw [ofFormulas, holds_reduce_greaterOrEqual (cleared_of_whole ha hb), a.value_linear,
    b.value_linear]

theorem violation_ofFormulas_equal :
    (ofFormulas a .equal b).violation v = |a.value v - b.value v| := by
  rw [ofFormulas, violation_reduce_equal (cleared_of_whole ha hb), a.value_linear, b.value_linear]

end Constraint

end Cassowary
