import Cassowary.Proofs.Optimality

/-!
# Redundant equalities after a removal

A required equality that says nothing new is kept under its dummy, whose row is zero at first. When
the constraint goes that made it redundant, the marker of that one may take the place of another
row, and then the row of the dummy moves with it. Nothing brings the dummy back to zero: it is kept
from being negative like any other symbol, so of the equality only an inequality is left.

So after a removal each required inequality holds, and each required equality holds at least as an
inequality. All of them hold if the basic dummies are zero, and only then. They are zero as long as
no row of a dummy has the marker of a constraint that goes.

## Main results

* `Solver.run_remove_feasible_iff` — when the required constraints hold after a removal
* `Solver.run_remove_not_feasible` — a redundant equality that is lost
-/

namespace Cassowary

namespace State

variable {s : State Rat} {v : Assignment Rat}

/-- Where no symbol is negative, the equation of a required constraint keeps its value from being
positive. -/
theorem Tidy.value_nonpos (hs : s.Tidy) (hv : s.Equations v) (hnonneg : v.Nonnegative)
    {h : Handle} {r : Record Rat} (hr : s.constraints.get? h = some r)
    (hrequired : r.strength.isRequired = true) : (s.current h r).value v ≤ 0 := by
  have hfits := hs.fits_current hr
  have hmarker := hnonneg h.marker (hfits.unrestricted List.mem_cons_self)
  have hother : h.other = none := by
    rw [hrequired] at hfits
    cases hrelation : (s.current h r).relation <;> rw [hrelation] at hfits <;> exact hfits.2
  have hequation := equations_iff.mp hv h r hr
  rw [Constraint.equation, hother, Option.elim_none] at hequation
  linarith

end State

namespace Solver

variable {s : Solver Rat} {config : Config Rat} {os : List (Operation Rat)} {h : Handle}
  {exact quiet : Prop}

/-- What a sound solver finds never makes the value of a required constraint positive. -/
theorem Sound.value_nonpos (hs : s.Sound exact quiet) (hexact : exact)
    (hpoisoned : s.poisoned = false) {e : Constraint Rat × Strength Rat} (he : e ∈ s.state.held)
    (hrequired : e.2.isRequired = true) :
    e.1.value s.assignment ≤ 0 := by
  obtain ⟨⟨h, r⟩, hmem, rfl⟩ := List.mem_map.mp he
  have hr := Table.get?_eq_some_iff.mpr hmem
  have htidy := hs.state.tidy
  rw [(s.state.current h r).value_congr (htidy.overLayout_current hr)
    fun _ => assignment_eq hpoisoned]
  exact htidy.value_nonpos hs.state.equations_basicSolution
    (hs.state.tableau.feasible hexact).basicSolution_nonnegative hr hrequired

/-- In exact arithmetic, after any run that ends with a removal and leaves the solver with values,
the value of no required constraint is positive, so the inequalities hold. The equalities hold as
well if the basic dummies are zero, and only then; so they do if no removal of the run has touched
the row of a dummy. -/
theorem run_remove_feasible_iff (hepsilon : config.epsilon = 0)
    (hos : ∀ o ∈ os, o.Lawful True)
    (hpoisoned : ((ofConfig config).run (os ++ [.remove h])).poisoned = false) :
    (∀ e ∈ ((ofConfig config).run (os ++ [.remove h])).state.held, e.2.isRequired = true →
      e.1.value ((ofConfig config).run (os ++ [.remove h])).assignment ≤ 0) ∧
    (((ofConfig config).run (os ++ [.remove h])).state.Feasible
        ((ofConfig config).run (os ++ [.remove h])).assignment ↔
      ∀ k row, ((ofConfig config).run (os ++ [.remove h])).state.tableau.rows.get? k = some row →
        k.dummy = true → row.constant = 0) ∧
    ((ofConfig config).Sparing (os ++ [.remove h]) →
      ((ofConfig config).run (os ++ [.remove h])).state.Feasible
        ((ofConfig config).run (os ++ [.remove h])).assignment) := by
  have hlawful : ∀ o ∈ os ++ [.remove h], o.Lawful True := by
    intro o ho
    rcases List.mem_append.mp ho with ho | ho
    · exact hos o ho
    · rw [List.mem_singleton.mp ho]
      trivial
  have hsound : ((ofConfig config).run (os ++ [.remove h])).Sound True False :=
    sound_run (fun _ => hepsilon) hlawful (fun _ => False.elim) hpoisoned
  refine ⟨fun e he hrequired => hsound.value_nonpos trivial hpoisoned he hrequired,
    hsound.feasible_iff trivial hpoisoned, fun hsparing => ?_⟩
  have hquiet : ((ofConfig config).run (os ++ [.remove h])).Sound True True :=
    sound_run (fun _ => hepsilon) hlawful (fun _ _ => hsparing) hpoisoned
  exact (hquiet.feasible_iff trivial hpoisoned).mpr fun k row hrow hk =>
    (hquiet.state.tableau.prepared.idle trivial trivial k row hrow hk).1

/-- A variable that is fixed twice, and that may not be negative. -/
def fixedTwice : List (Operation Rat) :=
  [.insert ((Variable.external 0).heldAt 5) .required,
    .insert ((Variable.external 0).heldAt 5) .required,
    .insert (.ofFormulas (.var (.external 0)) .greaterOrEqual (.number 0)) .required]

/-- The first of the two constraints that fix the variable. -/
def fixedFirst : Handle := ⟨.ofIndex .dummy false 0, none⟩

theorem run_remove_fixedTwice :
    (((ofConfig ⟨0, true, 100⟩).run fixedTwice).step (.remove fixedFirst)).1 = .ok (.removed true) ∧
      ∀ e ∈ ((ofConfig ⟨0, true, 100⟩).run (fixedTwice ++ [.remove fixedFirst])).state.held,
        e.2.isRequired = true → e.1.value
          ((ofConfig ⟨0, true, 100⟩).run (fixedTwice ++ [.remove fixedFirst])).assignment ≤ 0 := by
  have hlawful : ∀ o ∈ fixedTwice, o.Lawful True := by
    have hrequired : 0 ≤ (Strength.required : Strength Rat).value := by decide +kernel
    intro o ho
    simp only [fixedTwice, List.mem_cons, List.not_mem_nil, or_false] at ho
    rcases ho with rfl | rfl | rfl
    · exact ⟨Variable.overLayout_heldAt _ _, fun _ => hrequired⟩
    · exact ⟨Variable.overLayout_heldAt _ _, fun _ => hrequired⟩
    · exact ⟨Constraint.overLayout_reduce _ _ _, fun _ => hrequired⟩
  exact ⟨by decide +kernel,
    (@run_remove_feasible_iff ⟨0, true, 100⟩ fixedTwice fixedFirst rfl hlawful
      (by decide +kernel)).1⟩

/-- After the first of the two constraints has gone, the variable is zero, and the second one does
not hold, although it is held. -/
theorem run_remove_not_feasible :
    ((ofConfig ⟨0, true, 100⟩).run fixedTwice).batch.isNone = true ∧
      (((ofConfig ⟨0, true, 100⟩).run fixedTwice).step (.remove fixedFirst)).1 =
        .ok (.removed true) ∧
      ((ofConfig ⟨0, true, 100⟩).run (fixedTwice ++ [.remove fixedFirst])).read (.external 0) =
        .value 0 ∧
      ¬ ((ofConfig ⟨0, true, 100⟩).run (fixedTwice ++ [.remove fixedFirst])).state.Feasible
        ((ofConfig ⟨0, true, 100⟩).run (fixedTwice ++ [.remove fixedFirst])).assignment := by
  refine ⟨by decide +kernel, by decide +kernel, by decide +kernel, fun hfeasible => ?_⟩
  have hheld : ((Variable.external 0).heldAt 5, (.required : Strength Rat)) ∈
      ((ofConfig ⟨0, true, 100⟩).run (fixedTwice ++ [.remove fixedFirst])).state.held := by
    decide +kernel
  have hholds := hfeasible _ hheld (by decide +kernel)
  have hmissed : ((Variable.external 0).heldAt 5).value
      ((ofConfig ⟨0, true, 100⟩).run (fixedTwice ++ [.remove fixedFirst])).assignment ≠ 0 := by
    decide +kernel
  exact hmissed hholds

end Solver

end Cassowary
