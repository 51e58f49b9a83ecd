import Cassowary.Proofs.Soundness

/-!
# The rows say what the constraints say

Substitutions, pivots, the way of an artificial variable, removals and moved targets all keep what a
tableau represents, or change it by the equation of one constraint. None of them asks how far signs
may be missed. So after every run, whatever the tolerance, the solutions of the rows are those of
the equations of the constraints that are held, with the last targets in place of the first ones.

Nothing is left over either: the rows mention layout variables and symbols of the constraints that
are held, and no symbol of a constraint that has gone or of a search for a first basis.

## Main definitions

* `State.Concerns` — layout variables, and the symbols of the constraints that are held

## Main results

* `State.Sound.concerns_of_row` — what is basic and what occurs in a row is of concern
* `Solver.run_solves_iff` — rows and equations have the same solutions after every run
-/

namespace Cassowary

namespace State

variable {s : State Rat} {k k' : Key} {row : Row Rat} {exact quiet : Prop}

/-- A key that the constraints speak of: a layout variable, or a symbol of one that is held. -/
def Concerns (s : State Rat) (k : Key) : Prop :=
  k.unrestricted = true ∨ ∃ h r, s.constraints.get? h = some r ∧ k ∈ h.markers

/-- The equations do not depend on a key that the constraints do not speak of. -/
theorem Tidy.ignores_of_not_concerns (hs : s.Tidy) (hk : ¬ s.Concerns k) :
    Ignores s.Equations k := by
  have hrestricted : k.unrestricted = false := Bool.eq_false_iff.mpr fun hu => hk (.inl hu)
  exact hs.equations_ignores hrestricted fun h r hr hmem => hk (.inr ⟨h, r, hr, hmem⟩)

/-- A key that is basic or occurs in a row is one that the constraints speak of. -/
theorem Sound.concerns_of_row (hs : s.Sound exact quiet) (hrow : s.tableau.rows.get? k = some row)
    (hk' : k' = k ∨ row.contains k' = true) : s.Concerns k' := by
  have hr := hs.tableau.prepared.represents
  by_contra hnot
  have hignores := hs.tidy.ignores_of_not_concerns hnot
  rcases hk' with rfl | hcontains
  · exact Tableau.ne_of_get? hrow (hr.isBasic_eq_false hignores) rfl
  · exact (hr.proper_row hrow).contains_iff.mp hcontains (hr.coefficientFor_eq_zero hignores hrow)

end State

namespace Solver

variable {config : Config Rat} {os : List (Operation Rat)}

/-- With any tolerance for signs, after any run that leaves the solver with values, of which
operations may have failed and have been undone, and in a batch or not, an assignment meets all rows
if and only if it meets the equations of all constraints that are held. The symbols in an equation
are of the kinds that the relation and the strength ask for, and no row mentions anything but layout
variables and such symbols. -/
theorem run_solves_iff (hos : ∀ o ∈ os, o.Lawful False)
    (hpoisoned : ((ofConfig config).run os).poisoned = false) :
    (∀ v, ((ofConfig config).run os).state.tableau.Solves v ↔
      ((ofConfig config).run os).state.Equations v) ∧
    (∀ h r, ((ofConfig config).run os).state.constraints.get? h = some r →
      h.Fits (((ofConfig config).run os).state.current h r).relation r.strength.isRequired) ∧
    ∀ k row, ((ofConfig config).run os).state.tableau.rows.get? k = some row →
      ∀ k', k' = k ∨ row.contains k' = true → ((ofConfig config).run os).state.Concerns k' := by
  have hsound : ((ofConfig config).run os).Sound False False :=
    sound_run False.elim hos (fun hexact => hexact.elim) hpoisoned
  have hstate := hsound.state
  exact ⟨hstate.tableau.prepared.represents.solves_iff,
    fun _ _ hr => hstate.tidy.fits_current hr,
    fun _ _ hrow _ => hstate.concerns_of_row hrow⟩

/-- A run with a target that moves, a constraint that goes, an equality that is refused, and a batch
that is closed. -/
def eventful : List (Operation Rat) :=
  [.startEdit (.external 0) .strong,
    .insert (.ofFormulas (.var (.external 0)) .lessOrEqual (.number 10)) .required,
    .openBatch,
    .insert ((Variable.external 1).heldAt 2) .required,
    .insert (.ofFormulas (.var (.external 0)) .greaterOrEqual (.var (.external 1))) .medium,
    .closeBatch,
    .suggest (.external 0) 7,
    .insert ((Variable.external 1).heldAt 3) .required,
    .remove ⟨.ofIndex .slack false 2, none⟩]

theorem run_solves_iff_eventful :
    ((ofConfig ⟨1e-3, true, 100⟩).run eventful).failures = 1 ∧
      ((ofConfig ⟨1e-3, true, 100⟩).run eventful).removals = 1 ∧
      ((ofConfig ⟨1e-3, true, 100⟩).run eventful).read (.external 0) = .value 7 ∧
      ∀ v, ((ofConfig ⟨1e-3, true, 100⟩).run eventful).state.tableau.Solves v ↔
        ((ofConfig ⟨1e-3, true, 100⟩).run eventful).state.Equations v := by
  refine ⟨by decide +kernel, by decide +kernel, by decide +kernel,
    (run_solves_iff (fun o ho => ?_) (by decide +kernel)).1⟩
  simp only [eventful, List.mem_cons, List.not_mem_nil, or_false] at ho
  rcases ho with rfl | rfl | rfl | rfl | rfl | rfl | rfl | rfl | rfl
  · exact False.elim
  · exact ⟨Constraint.overLayout_reduce _ _ _, False.elim⟩
  · exact trivial
  · exact ⟨Variable.overLayout_heldAt _ _, False.elim⟩
  · exact ⟨Constraint.overLayout_reduce _ _ _, False.elim⟩
  · exact trivial
  · exact trivial
  · exact ⟨Variable.overLayout_heldAt _ _, False.elim⟩
  · exact trivial

end Solver

end Cassowary
