import Cassowary.Proofs.Simplex
import Cassowary.Tableau.Removal
import Cassowary.Tableau.Suggestion

/-!
# What operations on a tableau are made of

A statement about an operation on a tableau is one about its parts: what it ensures where it ends at
once, and what solving, or another operation, ensures where it goes on with that. There is one rule
for each operation, and what is proved of the operations is proved by these rules.

## Main results

* `Tableau.ensures_finish_of` — solving, or putting it off
* `Tableau.ensures_createRow_of`, `Tableau.ensures_prepareFor_of`,
  `Tableau.ensures_retireArtificial_of`, `Tableau.ensures_insertRow_of` — the steps of an insertion
* `Tableau.ensures_removeConstraint_of`, `Tableau.ensures_suggest_of` — removals and moved targets
-/

namespace Cassowary

namespace Tableau

open Attempt

variable {α : Type} [Scalar α] {t : Tableau α} {handle : Handle} {row : Row α} {a : Key}
  {failed : SolverError → Tableau α → Prop}

/-- Solving is put off if it may be and no row is queued. -/
theorem ensures_finish_of {defer : Bool} {done : Unit → Tableau α → Prop}
    (hdefer : defer = true → t.infeasible = [] → done () { t with deferred := true })
    (hsolve : ¬ (defer = true ∧ t.infeasible = []) → Ensures solve t done failed) :
    Ensures (finish defer) t done failed := by
  unfold finish
  rw [ensures_bind, ensures_get]
  by_cases hoff : defer = true ∧ t.infeasible = []
  · rw [if_pos (by rw [hoff.1, hoff.2]; rfl)]
    exact hdefer hoff.1 hoff.2
  · rw [if_neg (by rwa [Bool.and_eq_true, List.isEmpty_iff])]
    exact hsolve hoff

/-- The equation of a constraint has new symbols, and is written in the terms of the tableau. -/
theorem ensures_createRow_of {c : Constraint α} {s : Strength α}
    {done : Row α × Handle → Tableau α → Prop}
    (hmarkers : Ensures (addMarkers (.ofConstraint c) c.relation s) t
      (fun made t' => done ((t'.substituteBasics made.1).normalize, made.2) t') failed) :
    Ensures (createRow c s) t done failed := by
  unfold createRow
  simp only [ensures_bind, ensures_get, ensures_pure]
  exact hmarkers

/-- What was put off is caught up on if a row is queued or the equation needs a repair, and the
equation is then written in the terms of the tableau that this leads to. -/
theorem ensures_prepareFor_of {done : Row α → Tableau α → Prop}
    (hready : (t.deferred = true → t.infeasible = [] ∧
      t.needsRepair row (row.subject? handle) = false) → done row t)
    (hsolve : t.deferred = true →
      (t.infeasible ≠ [] ∨ t.needsRepair row (row.subject? handle) = true) →
      Ensures solve t (fun _ t' => done (t'.substituteBasics row).normalize t') failed) :
    Ensures (prepareFor row handle) t done failed := by
  unfold prepareFor
  rw [ensures_bind, ensures_get]
  split
  · next hcatch =>
    rw [Bool.and_eq_true, Bool.or_eq_true, Bool.not_eq_true', List.isEmpty_eq_false_iff] at hcatch
    rw [ensures_bind]
    exact hsolve hcatch.1 hcatch.2
  · next hcatch =>
    refine hready fun hdeferred => ?_
    rw [hdeferred, Bool.true_and, Bool.not_eq_true, Bool.or_eq_false_iff, Bool.not_eq_false',
      List.isEmpty_iff] at hcatch
    exact hcatch

/-- An artificial variable that is basic goes with its row if that is empty, and otherwise leaves it
to a key that can be basic. -/
theorem ensures_retireArtificial_of {done : Unit → Tableau α → Prop}
    (hnone : t.rows.get? a = none → done () t)
    (hempty : ∀ row, t.rows.get? a = some row → row.isEmpty = true → done () (t.eraseRow a))
    (hstuck : ∀ row, t.rows.get? a = some row → row.anyPivotable = none →
      failed .unsatisfiable (t.eraseRow a))
    (hreplace : ∀ row entering, t.rows.get? a = some row → row.anyPivotable = some entering →
      done () (((t.eraseRow a).eliminate entering (row.solveForPair a entering)).putRow entering
        (row.solveForPair a entering))) :
    Ensures (retireArtificial a) t done failed := by
  unfold retireArtificial
  rw [ensures_bind, ensures_get]
  cases hrow : t.rows.get? a with
  | none => exact hnone hrow
  | some row =>
    dsimp only
    rw [ensures_bind, ensures_set]
    split
    · next hrowless => exact hempty row hrow hrowless
    · cases hentering : row.anyPivotable with
      | none => exact hstuck row hrow hentering
      | some entering => exact hreplace row entering hrow hentering

/-- An equation is solved for a variable where there is one. Where nothing but dummies is left, it
is contradictory or redundant, and otherwise it takes an artificial variable. -/
theorem ensures_insertRow_of {P : Row α → Tableau α → Prop} {done : Unit → Tableau α → Prop}
    (hprepare : Ensures (prepareFor row handle) t P failed)
    (hsubject : ∀ row t subject, P row t → row.subject? handle = some subject →
      done () (t.install row subject.key))
    (hcontradictory : ∀ row t, P row t → row.subject? handle = none → row.allDummies = true →
      t.epsilon < Scalar.magnitude row.constant → failed .unsatisfiable t)
    (hredundant : ∀ row t, P row t → row.subject? handle = none → row.allDummies = true →
      ¬ t.epsilon < Scalar.magnitude row.constant → done () (t.install row handle.marker))
    (hartificial : ∀ row t, P row t → row.subject? handle = none → ¬ row.allDummies = true →
      Ensures (addWithArtificial row) t done failed) :
    Ensures (insertRow row handle) t done failed := by
  unfold insertRow
  rw [ensures_bind]
  refine hprepare.imp (fun row t hprepared => ?_) fun _ _ => id
  rw [ensures_bind, ensures_get]
  cases hkey : row.subject? handle with
  | some subject => exact hsubject row t subject hprepared hkey
  | none =>
    dsimp only
    split
    · next hdummies =>
      split
      · next hconstant => exact hcontradictory row t hprepared hkey hdummies hconstant
      · next hconstant => exact hredundant row t hprepared hkey hdummies hconstant
    · next hdummies => exact hartificial row t hprepared hkey hdummies

/-- Without the prices of its errors and without its marker, a constraint is gone. -/
theorem ensures_removeConstraint_of {s : Strength α} {defer : Bool} {done : Unit → Tableau α → Prop}
    (hfinish : Ensures (finish defer)
      (((handle.markers.filter (·.kind = .error)).foldl (·.dropPrice · s) t).dropMarker
        handle.marker) done failed) :
    Ensures (removeConstraint handle s defer) t done failed := by
  unfold removeConstraint
  rw [ensures_bind, ensures_get, ensures_bind, ensures_set]
  exact hfinish

/-- A target moves with the constants, which the dual method repairs, once what was put off has been
caught up on. -/
theorem ensures_suggest_of {P : Tableau α → Prop} {delta : α} {done : Unit → Tableau α → Prop}
    (hready : t.deferred = false → P t)
    (hsolve : t.deferred = true → Ensures solve t (fun _ => P) failed)
    (hnone : ∀ t, P t → handle.other = none → done () t)
    (hmove : ∀ t minus, P t → handle.other = some minus →
      Ensures dualOptimize (t.shift (t.targetShift handle.marker minus delta)) done failed) :
    Ensures (suggest handle delta) t done failed := by
  have hcatch : ∀ rest : Attempt (Tableau α) Unit, (∀ t, P t → Ensures rest t done failed) →
      Ensures (if t.deferred then do solve; rest else rest) t done failed := by
    intro rest hrest
    by_cases hdeferred : t.deferred = true
    · rw [if_pos hdeferred, ensures_bind]
      exact (hsolve hdeferred).imp (fun _ => hrest) fun _ _ => id
    · rw [if_neg hdeferred]
      exact hrest t (hready (Bool.not_eq_true _ |>.mp hdeferred))
  unfold suggest
  rw [ensures_bind, ensures_get]
  refine hcatch _ fun t ht => ?_
  cases hother : handle.other with
  | none => exact hnone t ht hother
  | some minus =>
    dsimp only
    rw [ensures_bind, ensures_modify]
    exact hmove t minus ht hother

end Tableau

end Cassowary
