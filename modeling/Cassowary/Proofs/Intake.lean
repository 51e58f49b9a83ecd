import Cassowary.Proofs.Registries
import Cassowary.Proofs.Row

/-!
# What a row takes over from a constraint

Two thresholds say which coefficients count as zero. Where a constraint is brought into its shape,
terms are dropped that have cancelled but for a rounding error. Where its terms go into a row, those
are dropped whose coefficients are below the tolerance of rows, which is far larger. The books go
by the constraint.

So the row of a constraint has the terms of the constraint that are not below the tolerance, in
their order and with their coefficients, and its constant. It says what the constraint says if and
only if there are no others. A variable whose coefficient is in between is counted as mentioned, and
does not occur in the row.

## Main definitions

* `Row.Renders` — a row with the terms and the constant of a constraint
* `State.Refers` — a constraint that is entered in the books as mentioning a variable

## Main results

* `Row.terms_insertAll` — terms with new and distinct keys are appended, unless they are negligible
* `Constraint.ofConstraint_reduce` — what a row takes over from a reduced constraint
-/

namespace Cassowary

/-! ## Terms that come in -/

namespace Row

variable {tolerance : Rat} {r : Row (Tolerant tolerance)}

/-- A term with a new key comes last, unless its coefficient counts as zero. -/
theorem terms_insert_of_not_contains {t : Term Key (Tolerant tolerance)} (hscale : r.scale ≠ 0)
    (hnew : r.contains t.var = false) :
    (r.insert t).terms = r.terms ++ if Scalar.negligible t.coefficient then [] else [t] := by
  have hnone : r.cells.get? t.var = none := by
    rwa [contains, Table.contains, Option.isSome_eq_false_iff, Option.isNone_iff_eq_none] at hnew
  unfold insert
  dsimp only
  cases hzero : Scalar.negligible t.coefficient with
  | true =>
    rw [Table.alter_eq_erase (by rw [hnone]; rfl), Table.erase_of_get?_eq_none hnone,
      if_pos rfl, List.append_nil]
  | false =>
    have hcell : (⟨t.var, t.coefficient / r.scale * r.scale⟩ : Term Key (Tolerant tolerance)) = t := by
      rw [div_mul_cancel₀ _ hscale]
    rw [Table.alter_eq_insert (by rw [hnone]; rfl), terms,
      Table.entries_insert_of_notMem (Table.get?_eq_none_iff.mp hnone), List.map_append,
      if_neg Bool.false_ne_true]
    exact congrArg (r.terms ++ [·]) hcell

/-- Terms with new and distinct keys come last in their order, but for those whose coefficients
count as zero. -/
theorem terms_insertAll {ts : List (Term Key (Tolerant tolerance))} (hscale : r.scale ≠ 0)
    (hnodup : (ts.map (·.var)).Nodup) (hnew : ∀ t ∈ ts, r.contains t.var = false) :
    (r.insertAll ts).terms = r.terms ++ ts.filter fun t => !Scalar.negligible t.coefficient := by
  induction ts generalizing r with
  | nil => exact (List.append_nil _).symm
  | cons t rest ih =>
    rw [List.map_cons, List.nodup_cons] at hnodup
    have hrest : ∀ t' ∈ rest, (r.insert t).contains t'.var = false := fun t' ht' => by
      have hne : t'.var ≠ t.var := fun heq => hnodup.1 (List.mem_map.mpr ⟨t', ht', heq⟩)
      rw [contains_insert_of_ne t hne]
      exact hnew t' (List.mem_cons_of_mem _ ht')
    rw [insertAll_cons, ih (r := r.insert t) hscale hnodup.2 hrest,
      terms_insert_of_not_contains hscale (hnew t List.mem_cons_self), List.append_assoc]
    refine congrArg (r.terms ++ ·) ?_
    rw [List.filter_cons]
    cases Scalar.negligible t.coefficient <;> rfl

end Row

/-! ## Variables that are counted -/

namespace State

variable {α : Type}

/-- Entering a constraint in the books makes one more mention of a variable. -/
def Refers (s : State α) (h : Handle) (r : Record α) (k : Key) : Prop :=
  (((s.register h r).references.get? k).getD 0) = ((s.references.get? k).getD 0) + 1

/-- The books count what the constraint lists. -/
theorem refers_iff (s : State α) (h : Handle) {r : Record α} (hnodup : r.constraint.keys.Nodup)
    (k : Key) : s.Refers h r k ↔ k ∈ r.constraint.keys := by
  rw [Refers, register, getD_foldl_refer, Nat.add_left_cancel_iff, hnodup.count]
  by_cases hk : k ∈ r.constraint.keys <;> simp [hk]

end State

/-! ## Reduced constraints -/

namespace Constraint

variable {tolerance : Rat}

/-- The terms of a reduced constraint have not cancelled. -/
theorem coefficient_ne_zero_of_mem_reduce {lhs rhs : LinearForm (Tolerant tolerance)}
    {comparison : Comparison} {t : Term Key (Tolerant tolerance)}
    (ht : t ∈ (reduce lhs comparison rhs).terms) : t.coefficient ≠ 0 := by
  have hordered : ∀ t ∈ ordered (merged (gathered lhs rhs)), t.coefficient ≠ 0 := by
    intro t ht hzero
    obtain ⟨kind, -, ht⟩ := List.mem_flatMap.mp ht
    obtain ⟨e, he, rfl⟩ := List.mem_map.mp ht
    have hsize := (of_decide_eq_true (List.mem_filter.mp he).2).2
    rw [show e.2 = 0 from hzero] at hsize
    change (1e-12 : Rat) < if (0 : Rat) < 0 then -0 else 0 at hsize
    norm_num at hsize
  have hnegated : ∀ t ∈ (ordered (merged (gathered lhs rhs))).map (-·), t.coefficient ≠ 0 := by
    rintro t ht
    obtain ⟨t', ht', rfl⟩ := List.mem_map.mp ht
    exact mul_ne_zero (hordered t' ht') (by norm_num)
  cases comparison <;> first | exact hordered t ht | exact hnegated t ht

/-- No coefficient is below the tolerance. -/
def Substantial (c : Constraint (Tolerant tolerance)) : Prop :=
  ∀ t ∈ c.terms, Scalar.tolerance ≤ |t.coefficient|

end Constraint

namespace Row

variable {tolerance : Rat} {row : Row (Tolerant tolerance)} {c : Constraint (Tolerant tolerance)}

/-- A row with the terms and the constant of a constraint. -/
structure Renders {α : Type} [Scalar α] (row : Row α) (c : Constraint α) : Prop where
  terms : row.terms = c.terms
  constant : row.constant = c.constant

/-- A row with the terms of a constraint that are not below the tolerance, and its constant. -/
structure Adopts (row : Row (Tolerant tolerance)) (c : Constraint (Tolerant tolerance)) : Prop where
  terms : row.terms = c.terms.filter fun t => Scalar.tolerance ≤ |t.coefficient|
  constant : row.constant = c.constant

namespace Adopts

/-- A row that adopts a constraint says what the constraint says if no coefficient is below the
tolerance, and only then. -/
theorem renders_iff (h : Adopts row c) : row.Renders c ↔ c.Substantial := by
  constructor
  · intro hrenders t ht
    rw [← hrenders.terms, h.terms] at ht
    exact of_decide_eq_true (List.mem_filter.mp ht).2
  · intro hall
    refine ⟨h.terms.trans (List.filter_eq_self.mpr fun t ht => ?_), h.constant⟩
    exact decide_eq_true (hall t ht)

theorem contains_iff (h : Adopts row c) {k : Key} : row.contains k = true ↔
    ∃ t ∈ c.terms, t.var = k ∧ Scalar.tolerance ≤ |t.coefficient| := by
  rw [Row.contains_iff_mem_keys, ← Row.map_var_terms, h.terms, List.mem_map]
  constructor
  · rintro ⟨t, ht, rfl⟩
    obtain ⟨ht, hlarge⟩ := List.mem_filter.mp ht
    exact ⟨t, ht, rfl, of_decide_eq_true hlarge⟩
  · rintro ⟨t, ht, rfl, hlarge⟩
    exact ⟨t, List.mem_filter.mpr ⟨ht, decide_eq_true hlarge⟩, rfl⟩

/-- All variables of a constraint occur in a row that adopts it if no coefficient is below the
tolerance, and only then. -/
theorem forall_contains_iff (h : Adopts row c) (hnodup : c.keys.Nodup) :
    (∀ k ∈ c.keys, row.contains k = true) ↔ c.Substantial := by
  rw [Constraint.keys, List.forall_mem_map]
  refine forall₂_congr fun t ht => ?_
  rw [h.contains_iff]
  constructor
  · rintro ⟨t', ht', hvar, hlarge⟩
    rwa [← List.inj_on_of_nodup_map hnodup ht' ht hvar]
  · exact fun hlarge => ⟨t, ht, rfl, hlarge⟩

/-- What a row that adopts a constraint misses of its value is what the terms below the tolerance
are worth. -/
theorem evaluate_add (h : Adopts row c) (v : Assignment (Tolerant tolerance)) :
    row.evaluate v + ((c.terms.filter fun t => ¬ Scalar.tolerance ≤ |t.coefficient|).map
      fun t => t.coefficient * v t.var).sum = c.value v := by
  have hsplit := (List.filter_append_perm (fun t => decide (Scalar.tolerance ≤ |t.coefficient|))
    c.terms).map fun t : Term Key (Tolerant tolerance) => t.coefficient * v t.var
  have hsum := hsplit.sum_eq
  rw [List.map_append, List.sum_append] at hsum
  rw [evaluate_eq_sum_terms, h.terms, h.constant, Constraint.value, ← hsum]
  simp only [decide_not]
  ring

end Adopts

end Row

namespace Constraint

/-- The row of a reduced constraint has the terms that are not below the tolerance, in their order
and with their coefficients, and the constant. So it has all terms, and all variables that the books
count for the constraint, if and only if no coefficient is below the tolerance. -/
theorem ofConstraint_reduce (lhs : LinearForm (Tolerant tolerance)) (comparison : Comparison)
    (rhs : LinearForm (Tolerant tolerance)) :
    (Row.ofConstraint (reduce lhs comparison rhs)).Adopts (reduce lhs comparison rhs) ∧
    ((Row.ofConstraint (reduce lhs comparison rhs)).Renders (reduce lhs comparison rhs) ↔
      (reduce lhs comparison rhs).Substantial) ∧
    (∀ (s : State (Tolerant tolerance)) (h : Handle) (w : Strength (Tolerant tolerance)),
      (∀ k, s.Refers h ⟨reduce lhs comparison rhs, w⟩ k →
        (Row.ofConstraint (reduce lhs comparison rhs)).contains k = true) ↔
        (reduce lhs comparison rhs).Substantial) ∧
    ∀ v : Assignment (Tolerant tolerance),
      (Row.ofConstraint (reduce lhs comparison rhs)).evaluate v +
        (((reduce lhs comparison rhs).terms.filter fun t =>
          ¬ Scalar.tolerance ≤ |t.coefficient|).map fun t => t.coefficient * v t.var).sum =
        (reduce lhs comparison rhs).value v := by
  have hnodup := nodup_keys_reduce lhs comparison rhs
  have hadopts : (Row.ofConstraint (reduce lhs comparison rhs)).Adopts
      (reduce lhs comparison rhs) := by
    refine ⟨?_, Row.constant_insertAll _ _⟩
    refine (Row.terms_insertAll one_ne_zero hnodup fun _ _ => rfl).trans ?_
    refine List.filter_congr fun t ht => ?_
    rw [Scalar.negligible_of_ne_zero (coefficient_ne_zero_of_mem_reduce ht), ← decide_not,
      decide_eq_decide, not_lt]
  refine ⟨hadopts, hadopts.renders_iff, fun s h w => ?_, hadopts.evaluate_add⟩
  rw [← hadopts.forall_contains_iff hnodup]
  exact forall_congr' fun k => imp_congr_left (s.refers_iff h hnodup k)

end Constraint

namespace Solver

/-- A small multiple of a variable equals one. -/
def faint : Constraint (Tolerant (1 / 10 ^ 8)) :=
  .ofFormulas (.term ⟨.external 0, 1 / 2 ^ 30⟩) .equal (.number 1)

/-- With the tolerance that is the default, the row of this constraint has no terms, although the
constraint has one. So the constraint is refused where it is required, although it can be met; and
where it is not required, the variable is counted, and read as zero. -/
theorem ofConstraint_faint :
    faint.terms = [⟨(Variable.external 0).key, 1 / 2 ^ 30⟩] ∧ (Row.ofConstraint faint).terms = [] ∧
    ¬ (Row.ofConstraint faint).Renders faint ∧ faint.Holds (fun _ => 2 ^ 30) ∧
    ((ofConfig ⟨1 / 10 ^ 8, true, 100⟩).step (.insert faint .required)).1 =
      .error .unsatisfiable ∧
    ((ofConfig ⟨1 / 10 ^ 8, true, 100⟩).step (.insert faint .weak)).2.read (.external 0) =
      .value 0 := by
  have hterms : faint.terms = [⟨(Variable.external 0).key, 1 / 2 ^ 30⟩] := by decide +kernel
  have hrow : (Row.ofConstraint faint).terms = [] := by decide +kernel
  have hvalue : faint.value (fun _ => 2 ^ 30) = 0 := by decide +kernel
  refine ⟨hterms, hrow, fun hrenders => ?_, hvalue, by decide +kernel, by decide +kernel⟩
  have hsame := hrenders.terms.symm.trans hrow
  rw [hterms] at hsame
  cases hsame

end Solver

end Cassowary
