import Cassowary.Proofs.Soundness

/-!
# What a solver finds is optimal

Where all variables that are not basic are zero, the rows give a solution without negative symbols.
That is what a solver finds. Its dummies are zero as long as those are idle, and then it meets every
required constraint. If the objective is optimal as well, no choice of values that meets them costs
less: the symbols that the choice asks for make it an admissible solution, and the objective is
nowhere smaller on those.

## Main definitions

* `Tableau.basicSolution` — the values where all variables that are not basic are zero
* `Operation.inserts` — insertions, and batches of them

## Main results

* `Solver.Sound.feasible_iff` — what is found is feasible if the basic dummies are zero
* `Solver.Sound.optimal` — what is found is optimal if all dummies are idle
* `Solver.optimal_run` — so after every run of insertions
-/

namespace Cassowary

/-! ## The solution of a tableau -/

namespace Tableau

variable {t : Tableau Rat} {S : Assignment Rat → Prop} {cost : Assignment Rat → Rat} {row : Row Rat}
  {k : Key} {v : Assignment Rat}

/-- The values where all variables that are not basic are zero. -/
def basicSolution (t : Tableau Rat) : Assignment Rat := t.complete fun _ => 0

theorem basicSolution_of_get? (hrow : t.rows.get? k = some row) :
    t.basicSolution k = row.constant :=
  (complete_of_get? hrow _).trans row.evaluate_zero

theorem basicSolution_of_get?_eq_none (hnone : t.rows.get? k = none) : t.basicSolution k = 0 :=
  complete_of_isBasic_eq_false (isBasic_eq_false_iff.mpr hnone) _

theorem Feasible.basicSolution_nonnegative (h : t.Feasible) : t.basicSolution.Nonnegative := by
  intro k hk
  cases hrow : t.rows.get? k with
  | some row =>
    rw [basicSolution_of_get? hrow]
    exact h k row hrow hk
  | none => rw [basicSolution_of_get?_eq_none hrow]

/-- An optimal objective is nowhere smaller on admissible solutions. -/
theorem Represents.cost_basicSolution_le (h : t.Represents S cost) (hlayered : t.Layered)
    (hminimal : t.objective.Minimal) (hv : S v) (hadmissible : v.Admissible) :
    cost t.basicSolution ≤ cost v := by
  obtain ⟨offset, hoffset⟩ := h.exists_offset
  have hsolution : S t.basicSolution := h.solves_complete _
  have hfree : ∀ k, k.unrestricted = true → t.objective.coefficientFor k = 0 := fun _ hk =>
    hlayered.objective hk
  calc cost t.basicSolution
      = t.objective.evaluate t.basicSolution + offset := (hoffset _ hsolution).symm
    _ = t.objective.constant + offset := by
        rw [basicSolution, evaluate_complete h.separated.objective h.proper_objective,
          Row.evaluate_zero]
    _ ≤ t.objective.evaluate v + offset :=
        add_le_add_left (hminimal.constant_le hfree hadmissible) offset
    _ = cost v := hoffset v hv

end Tableau

/-! ## What a solver finds -/

namespace State

variable {s : State Rat} {k : Key} {row : Row Rat} {exact quiet : Prop}

theorem Sound.equations_basicSolution (hs : s.Sound exact quiet) :
    s.Equations s.tableau.basicSolution :=
  hs.tableau.prepared.represents.solves_complete _

/-- A basic dummy marks a constraint that is held. -/
theorem Sound.exists_marker_of_dummy (hs : s.Sound exact quiet)
    (hrow : s.tableau.rows.get? k = some row)
    (hk : k.dummy = true) : ∃ h r, s.constraints.get? h = some r ∧ k = h.marker := by
  by_contra hnone
  have hmem : ∀ h r, s.constraints.get? h = some r → k ∉ h.markers := by
    intro h r hr hmem
    refine hnone ⟨h, r, hr, (Handle.mem_markers.mp hmem).resolve_right fun hother => ?_⟩
    have hpivotable := ((hs.tidy.fits h r hr).pivotable_of_other hother).2
    rw [Key.dummy_of_pivotable hpivotable] at hk
    cases hk
  have hignores := hs.tidy.equations_ignores (Key.unrestricted_of_dummy hk) hmem
  have hbasic := hs.tableau.prepared.represents.isBasic_eq_false hignores
  exact Tableau.ne_of_get? hrow hbasic rfl

/-- The solution of a sound tableau is feasible if the basic dummies are zero, and only then. -/
theorem Sound.feasible_basicSolution_iff (hs : s.Sound exact quiet) (hexact : exact) :
    s.Feasible s.tableau.basicSolution ↔
      ∀ k row, s.tableau.rows.get? k = some row → k.dummy = true → row.constant = 0 := by
  have hnonneg := (hs.tableau.feasible hexact).basicSolution_nonnegative
  rw [hs.tidy.feasible_iff hs.equations_basicSolution hnonneg]
  constructor
  · intro hzero k row hrow hk
    obtain ⟨h, r, hr, rfl⟩ := hs.exists_marker_of_dummy hrow hk
    rw [← Tableau.basicSolution_of_get? hrow]
    exact hzero h r hr hk
  · intro hzero h r _ hdummy
    cases hrow : s.tableau.rows.get? h.marker with
    | some row => rw [Tableau.basicSolution_of_get? hrow, hzero _ row hrow hdummy]
    | none => exact Tableau.basicSolution_of_get?_eq_none hrow

theorem Sound.feasible_basicSolution (hs : s.Sound exact quiet) (hexact : exact) (hquiet : quiet) :
    s.Feasible s.tableau.basicSolution :=
  (hs.feasible_basicSolution_iff hexact).mpr fun k row hrow hk =>
    (hs.tableau.prepared.idle hexact hquiet k row hrow hk).1

end State

namespace Solver

variable {s : Solver Rat} {config : Config Rat} {k : Key} {exact quiet : Prop}

/-- What a solver finds for a layout variable is what its tableau says. -/
theorem assignment_eq (hpoisoned : s.poisoned = false) (hk : k.unrestricted = true) :
    s.assignment k = s.state.tableau.basicSolution k := by
  have hread : ∀ x : Rat, (Reading.value x).getD 0 = x := fun x => by
    have hstatus : Status.of x = .ok := by
      unfold Status.of Scalar.isNaN
      rw [beq_self_eq_true, Bool.not_true, if_neg Bool.false_ne_true]
      rfl
    rw [Reading.getD, if_pos hstatus]
  have hkey : Variable.ofKey? k = some ⟨k, .inl hk⟩ := dif_pos (.inl hk)
  unfold assignment
  rw [hkey]
  dsimp only
  unfold read
  rw [hpoisoned, if_neg Bool.false_ne_true]
  cases hrow : s.state.tableau.rows.get? k with
  | some row => exact (hread _).trans (Tableau.basicSolution_of_get? hrow).symm
  | none =>
    rw [Tableau.basicSolution_of_get?_eq_none hrow]
    dsimp only
    split
    · exact hread 0
    · rfl

/-- What a sound solver finds is feasible if the basic dummies are zero, and only then. -/
theorem Sound.feasible_iff (hs : s.Sound exact quiet) (hexact : exact)
    (hpoisoned : s.poisoned = false) :
    s.state.Feasible s.assignment ↔
      ∀ k row, s.state.tableau.rows.get? k = some row → k.dummy = true → row.constant = 0 := by
  rw [hs.state.tidy.feasible_congr fun _ => assignment_eq hpoisoned]
  exact hs.state.feasible_basicSolution_iff hexact

/-- What a sound solver finds is optimal, outside a batch and if the dummies are idle. -/
theorem Sound.optimal (hs : s.Sound exact quiet) (hexact : exact) (hquiet : quiet)
    (hpoisoned : s.poisoned = false) (hbatch : s.batch = none) : s.state.Optimal s.assignment := by
  have hstate := hs.state
  have hsame : ∀ k : Key, k.unrestricted = true →
      s.assignment k = s.state.tableau.basicSolution k := fun _ => assignment_eq hpoisoned
  refine ⟨?_, fun w hw => ?_⟩
  · rw [hstate.tidy.feasible_congr hsame]
    exact hstate.feasible_basicSolution hexact hquiet
  · have hnonneg := (hstate.tableau.feasible hexact).basicSolution_nonnegative
    calc s.state.cost s.assignment
        = s.state.cost s.state.tableau.basicSolution := hstate.tidy.cost_congr hsame
      _ ≤ s.state.charge s.state.tableau.basicSolution :=
          hstate.tidy.cost_le_charge (hstate.priced hexact) hstate.equations_basicSolution hnonneg
      _ ≤ s.state.charge (s.state.settle w) :=
          hstate.tableau.prepared.represents.cost_basicSolution_le
            hstate.tableau.prepared.canonical.layered
            (hstate.tableau.optimal hexact (hs.settled hbatch)) (hstate.tidy.equations_settle hw)
            (hstate.tidy.admissible_settle hw)
      _ = s.state.cost w := hstate.tidy.charge_settle w

/-! ## Runs of insertions -/

/-- A run without removals spares the dummies. -/
theorem sparing_of_forall_ne {os : List (Operation Rat)} (hos : ∀ o ∈ os, ∀ h, o ≠ .remove h)
    (s : Solver Rat) : s.Sparing os := by
  induction os generalizing s with
  | nil => trivial
  | cons o os ih =>
    refine ⟨?_, ih (fun o ho => hos o (List.mem_cons_of_mem _ ho)) _⟩
    cases o with
    | remove h => exact absurd rfl (hos _ List.mem_cons_self h)
    | _ => trivial

end Solver

/-- An operation that inserts a constraint, or that opens or closes a batch. -/
def Operation.inserts : Operation Rat → Bool
  | .insert _ _ | .openBatch | .closeBatch => true
  | _ => false

namespace Solver

variable {config : Config Rat} {os : List (Operation Rat)}

/-- In exact arithmetic, after any run of insertions, in batches or not, of which some may have
failed and have been undone, what a solver finds outside a batch meets every required constraint,
and no other values that do cost less. -/
theorem optimal_run (hepsilon : config.epsilon = 0) (hrollback : config.rollbackOnFailure = true)
    (hos : ∀ o ∈ os, o.Lawful True ∧ o.inserts = true)
    (hbatch : ((ofConfig config).run os).batch = none) :
    ((ofConfig config).run os).state.Optimal ((ofConfig config).run os).assignment := by
  have hpoisoned := poisoned_run hrollback os
  have hsparing : (ofConfig config).Sparing os := by
    refine sparing_of_forall_ne (fun o ho h => ?_) _
    rintro rfl
    exact Bool.false_ne_true (hos _ ho).2
  have hsound : ((ofConfig config).run os).Sound True True :=
    sound_run (fun _ => hepsilon) (fun o ho => (hos o ho).1) (fun _ _ => hsparing) hpoisoned
  exact hsound.optimal trivial trivial hpoisoned hbatch

/-- A batch that holds a variable to one target and would like another one, and a third target that
is refused. -/
def conflicting : List (Operation Rat) :=
  [.openBatch, .insert ((Variable.external 0).heldAt 5) .required,
    .insert ((Variable.external 0).heldAt 7) .weak, .closeBatch,
    .insert ((Variable.external 0).heldAt 6) .required]

theorem optimal_run_conflicting :
    ((ofConfig ⟨0, true, 100⟩).run conflicting).failures = 1 ∧
      ((ofConfig ⟨0, true, 100⟩).run conflicting).read (.external 0) = .value 5 ∧
      ((ofConfig ⟨0, true, 100⟩).run conflicting).state.Optimal
        ((ofConfig ⟨0, true, 100⟩).run conflicting).assignment := by
  refine ⟨by decide +kernel, by decide +kernel, optimal_run rfl rfl (fun o ho => ?_) ?_⟩
  · have hrequired : 0 ≤ (Strength.required : Strength Rat).value := by decide +kernel
    have hweak : 0 ≤ (Strength.weak : Strength Rat).value := by decide +kernel
    simp only [conflicting, List.mem_cons, List.not_mem_nil, or_false] at ho
    rcases ho with rfl | rfl | rfl | rfl | rfl
    · exact ⟨trivial, rfl⟩
    · exact ⟨⟨Variable.overLayout_heldAt _ _, fun _ => hrequired⟩, rfl⟩
    · exact ⟨⟨Variable.overLayout_heldAt _ _, fun _ => hweak⟩, rfl⟩
    · exact ⟨trivial, rfl⟩
    · exact ⟨⟨Variable.overLayout_heldAt _ _, fun _ => hrequired⟩, rfl⟩
  · exact Option.isNone_iff_eq_none.mp (by decide +kernel)

end Solver

end Cassowary
