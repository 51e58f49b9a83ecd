import Cassowary.Proofs.Verdict

/-!
# What an operation can be refused for

A constraint that may be violated contradicts nothing, a removal takes no solution away, and a batch
puts solving off while the rows are feasible. The errors are never negative, so the cost has a
bound. So in exact arithmetic none of these operations is refused because constraints conflict or
because something can be made as small as one likes. What is left are the limits: pivots, and for an
insertion symbols as well.

Dummies do not matter here, so removals may come anywhere in a run.

## Main results

* `Certified.limited` — a failure that is not a contradiction, where the cost has a bound
* `Solver.ensures_insert_limited`, `Solver.ensures_removal_limited`,
  `Solver.ensures_closeBatch_limited` — the operations
* `Solver.refused_for_limits` — all of them after any run
-/

namespace Cassowary

open Attempt

/-- Where the cost has a bound, a failure that does not tell of a contradiction is for want of
pivots or symbols. -/
theorem Certified.limited {quiet : Prop} {S : Assignment Rat → Prop} {cost : Assignment Rat → Rat}
    {cause : SolverError} (h : Certified True quiet S cost cause) (hbounded : Bounded S cost)
    (hne : cause ≠ .unsatisfiable) :
    (∃ n, cause = .iterationLimit n) ∨ ∃ i, cause = .indexSpaceExhausted i := by
  cases cause with
  | iterationLimit n => exact .inl ⟨n, rfl⟩
  | indexSpaceExhausted i => exact .inr ⟨i, rfl⟩
  | unsatisfiable => exact absurd rfl hne
  | unbounded => exact absurd hbounded (h trivial)
  | _ => exact h.elim

namespace State

variable {s : State Rat} {h : Handle} {r : Record Rat} {c : Constraint Rat} {w : Strength Rat}
  {exact quiet : Prop} {S : Assignment Rat → Prop}

/-- The costs have a bound below, whatever the equations are, since errors cost nothing below
zero. -/
theorem Tidy.bounded (hs : s.Tidy)
    (hpriced : ∀ h r, s.constraints.get? h = some r → 0 ≤ r.strength.value) : Bounded S s.charge :=
  ⟨0, fun _ _ => hs.charge_nonneg hpriced⟩

/-- The costs have a bound below with a constraint that comes. -/
theorem Sound.bounded_register (hs : s.Sound True quiet) (hfits : h.Fits c.relation w.isRequired)
    (hfresh : h.Fresh s.tableau.nextId) (hc : c.OverLayout) (hw : 0 ≤ w.value) :
    Bounded S (s.register h ⟨c, w⟩).charge := by
  refine (hs.tidy_register hfits hfresh hc).bounded fun h' r' hr' => ?_
  rcases get?_register_cases hr' with ⟨-, rfl⟩ | hr'
  · exact hw
  · exact hs.priced trivial h' r' hr'

/-- The costs have a bound below without a constraint that goes. -/
theorem Sound.bounded_unregister (hs : s.Sound True quiet) (hr : s.constraints.get? h = some r) :
    Bounded S (s.unregister h).charge :=
  (hs.tidy.unregister hr).bounded fun h' r' hr' =>
    hs.priced trivial h' r' (get?_of_unregister hr hr').2

end State

namespace Tableau

/-- Prices are dropped without symbols. -/
theorem nextId_dropPrices (t : Tableau Rat) (errors : List Key) (s : Strength Rat) :
    (errors.foldl (·.dropPrice · s) t).nextId = t.nextId := by
  induction errors generalizing t with
  | nil => rfl
  | cons k rest ih => exact (ih _).trans (nextId_dropPrice t k s)

theorem nextId_dropMarker (t : Tableau Rat) (marker : Key) :
    (t.dropMarker marker).nextId = t.nextId := by
  unfold dropMarker
  split
  · exact nextId_eraseRow t marker
  · split
    · exact (nextId_eraseRow _ marker).trans (nextId_pivot t marker _)
    · rfl

theorem SpendsNothing.removeConstraint (h : Handle) (s : Strength Rat) (defer : Bool) :
    SpendsNothing (removeConstraint h s defer) := by
  intro t
  refine ensures_removeConstraint_of
    ((SpendsNothing.finish defer _).imp (fun _ t' ht' => ?_) fun _ _ => id)
  exact ht'.trans ((nextId_dropMarker _ _).trans (nextId_dropPrices t _ s))

end Tableau

namespace Solver

variable {s : Solver Rat} {config : Config Rat} {h : Handle} {r : Record Rat} {c : Constraint Rat}
  {w : Strength Rat} {quiet : Prop}

/-- A constraint that may be violated is refused only for want of pivots or symbols. -/
theorem ensures_insert_limited (hrest : s.AtRest config) (hs : s.Sound True quiet)
    (hc : c.OverLayout) (hw : 0 ≤ w.value) (hsoft : w.isRequired = false) :
    Ensures (insert c w) s (fun _ _ => True)
      fun cause _ => (∃ n, cause = .iterationLimit n) ∨ ∃ i, cause = .indexSpaceExhausted i := by
  refine ensures_insert_of ((ensures_guarded_of (fun _ => Tableau.keeps_addConstraint c w _) hrest
    fun t ht => hs.state.ensures_addConstraint ht hc (fun _ => hw) s.isBatching).imp
      (fun _ _ _ => trivial) ?_)
  rintro cause _ ⟨⟨_, hindex | ⟨h, ⟨hfits, hfresh⟩, hcertified, hrequired⟩⟩, -⟩
  · exact .inr hindex
  · refine hcertified.limited (hs.state.bounded_register hfits hfresh hc hw) fun hcause => ?_
    exact Bool.false_ne_true (hsoft.symm.trans (hrequired hcause trivial))

/-- A constraint that is held is not removed only for want of pivots. -/
theorem ensures_removal_limited (hrest : s.AtRest config) (hs : s.Sound True False)
    (hr : s.state.constraints.get? h = some r) :
    Ensures (guarded (Tableau.removeConstraint h r.strength s.isBatching)) s (fun _ _ => True)
      fun cause _ => ∃ n, cause = .iterationLimit n := by
  have hlimited : ∀ t, t = s.state.tableau ∨ t = s.state.tableau.begin →
      Ensures (Tableau.removeConstraint h r.strength s.isBatching) t (fun _ _ => True)
        fun cause _ => ∃ n, cause = .iterationLimit n := by
    intro t ht
    refine ((hs.state.ensures_removeConstraint ht hrest.tableau.artificial hr (fun _ => nofun)
      s.isBatching).and (Tableau.SpendsNothing.removeConstraint h r.strength s.isBatching t)).imp
      (fun _ _ _ => trivial) ?_
    rintro cause _ ⟨⟨hcertified, hnot⟩, hindex⟩
    refine (hcertified.limited (hs.state.bounded_unregister hr) fun hcause => ?_).resolve_right ?_
    · exact hnot hcause trivial
    · rintro ⟨i, rfl⟩
      exact hindex i rfl
  exact (ensures_guarded_of (fun _ => Tableau.keeps_removeConstraint h r.strength _) hrest
    hlimited).imp (fun _ _ _ => trivial) fun _ _ hfailed => hfailed.1.choose_spec

/-- A batch that is open is not closed only for want of pivots. -/
theorem ensures_closeBatch_limited (hs : s.Sound True quiet) (hbatch : s.batch ≠ none) :
    Ensures closeBatch s (fun _ _ => True) fun cause _ => ∃ n, cause = .iterationLimit n := by
  have hsolve := (Tableau.ensures_solve_of_sound hs.state.tableau hs.state.bounded).and
    (Tableau.SpendsNothing.solve s.state.tableau)
  refine ensures_closeBatch_of (fun hnone => absurd hnone hbatch) fun b _ =>
    hsolve.imp (fun _ _ _ => trivial) ?_
  rintro cause _ ⟨⟨hcertified, hnot⟩, hindex⟩
  have hbounded : Bounded s.state.Equations s.state.charge := hs.state.bounded trivial
  have hlimited : ∃ n, cause = .iterationLimit n := by
    refine ((hcertified _ _).limited hbounded fun hcause => ?_).resolve_right ?_
    · exact hnot hcause trivial
    · rintro ⟨i, rfl⟩
      exact hindex i rfl
  exact ⟨fun _ _ => hlimited, fun _ => hlimited⟩

/-- In exact arithmetic, after any run that leaves the solver with values, in a batch or not: a
constraint that may be violated is refused only for want of pivots or symbols, and a constraint that
is held is kept, or an open batch not closed, only for want of pivots. -/
theorem refused_for_limits (hepsilon : config.epsilon = 0) {os : List (Operation Rat)}
    (hos : ∀ o ∈ os, o.Lawful True) (hrun : (ofConfig config).run os = s)
    (hpoisoned : s.poisoned = false) :
    (∀ c w cause, c.OverLayout → 0 ≤ w.value → w.isRequired = false →
      (s.step (.insert c w)).1 = .error cause →
        (∃ n, cause = .iterationLimit n) ∨ ∃ i, cause = .indexSpaceExhausted i) ∧
    (∀ h r, s.state.constraints.get? h = some r →
      (s.step (.remove h)).1 = .ok (.removed true) ∨
        (s.step (.remove h)).1 = .ok (.removed false) ∧ ∃ n,
          ((guarded (Tableau.removeConstraint h r.strength s.isBatching)).outcome s).1 =
            .error (.iterationLimit n)) ∧
    (s.batch ≠ none → ∀ cause, (s.step .closeBatch).1 = .error cause →
      ∃ n, cause = .iterationLimit n) := by
  subst hrun
  have hrest : ((ofConfig config).run os).AtRest config := Reachable.atRest ⟨os, rfl⟩
  have hsound : ((ofConfig config).run os).Sound True False :=
    sound_run (fun _ => hepsilon) hos (fun _ => nofun) hpoisoned
  refine ⟨fun c w cause hc hw hsoft hcause => ?_, fun h r hr => ?_, fun hbatch cause hcause => ?_⟩
  · have hensures : Ensures (perform (.insert c w)) ((ofConfig config).run os) (fun _ _ => True)
        fun cause _ => (∃ n, cause = .iterationLimit n) ∨ ∃ i, cause = .indexSpaceExhausted i :=
      ensures_map _ |>.mpr (ensures_insert_limited hrest hsound hc hw hsoft)
    exact hensures.of_error hcause
  -- The answer only tells whether the constraint is gone, so the cause is read off the tableau
  · have hanswer : (((ofConfig config).run os).step (.remove h)).1 = _ :=
      congrArg Prod.fst (outcome_map (remove h) Answer.removed _)
    rw [outcome_remove hr] at hanswer
    rcases (ensures_removal_limited hrest hsound hr).outcome with ⟨_, hdone, -⟩ | ⟨_, hfailed, n, rfl⟩
    · rw [hdone] at hanswer
      exact .inl hanswer
    · rw [hfailed] at hanswer
      exact .inr ⟨hanswer, n, hfailed⟩
  · have hensures : Ensures (perform .closeBatch) ((ofConfig config).run os) (fun _ _ => True)
        fun cause _ => ∃ n, cause = .iterationLimit n :=
      ensures_bind _ |>.mpr (ensures_closeBatch_limited hsound hbatch)
    exact hensures.of_error hcause

/-- A constraint that comes and goes, a bound, and no pivots. -/
def motionless : List (Operation Rat) :=
  [.insert (.ofFormulas (.var (.external 1)) .greaterOrEqual (.number 0)) .required,
    .remove ⟨⟨.slack, false, 0⟩, none⟩,
    .insert (.ofFormulas (.var (.external 0)) .greaterOrEqual (.number 1)) .required]

/-- A target beyond the bound is refused for the limit, outside a batch at once and in
a batch at its end, and the bound can be removed. -/
theorem refused_for_limits_motionless :
    (∃ cause, (((ofConfig ⟨0, true, 0⟩).run motionless).step
        (.insert ((Variable.external 0).heldAt 5) .weak)).1 = .error cause ∧
      ((∃ n, cause = .iterationLimit n) ∨ ∃ i, cause = .indexSpaceExhausted i)) ∧
    (((ofConfig ⟨0, true, 0⟩).run motionless).step (.remove ⟨⟨.slack, false, 1⟩, none⟩)).1 =
      .ok (.removed true) ∧
    ∃ cause, (((ofConfig ⟨0, true, 0⟩).run
        (motionless ++ [.openBatch, .insert ((Variable.external 0).heldAt 5) .weak])).step
          .closeBatch).1 = .error cause ∧ ∃ n, cause = .iterationLimit n := by
  have hweak : 0 ≤ (Strength.weak : Strength Rat).value := by decide +kernel
  have hlawful : ∀ o ∈ motionless, o.Lawful True := by
    intro o ho
    simp only [motionless, List.mem_cons, List.not_mem_nil, or_false] at ho
    rcases ho with rfl | rfl | rfl
    · exact ⟨Constraint.overLayout_reduce _ _ _, fun _ => Strength.required_nonneg⟩
    · exact trivial
    · exact ⟨Constraint.overLayout_reduce _ _ _, fun _ => Strength.required_nonneg⟩
  have hlawful' : ∀ o ∈ motionless ++
      [.openBatch, .insert ((Variable.external 0).heldAt 5) .weak], o.Lawful True := by
    intro o ho
    simp only [List.mem_append, List.mem_cons, List.not_mem_nil, or_false] at ho
    rcases ho with ho | rfl | rfl
    · exact hlawful o ho
    · exact trivial
    · exact ⟨Variable.overLayout_heldAt _ _, fun _ => hweak⟩
  have hrun := @refused_for_limits _ ⟨0, true, 0⟩ rfl motionless hlawful rfl (by decide +kernel)
  have hrun' := @refused_for_limits _ ⟨0, true, 0⟩ rfl _ hlawful' rfl (by decide +kernel)
  have hinsert : (((ofConfig ⟨0, true, 0⟩).run motionless).step
      (.insert ((Variable.external 0).heldAt 5) .weak)).1 = .error (.iterationLimit 0) := by
    decide +kernel
  have hclose : (((ofConfig ⟨0, true, 0⟩).run
      (motionless ++ [.openBatch, .insert ((Variable.external 0).heldAt 5) .weak])).step
        .closeBatch).1 = .error (.iterationLimit 0) := by decide +kernel
  have hkept : (((ofConfig ⟨0, true, 0⟩).run motionless).step
      (.remove ⟨⟨.slack, false, 1⟩, none⟩)).1 ≠ .ok (.removed false) := by decide +kernel
  obtain ⟨r, hr⟩ : ∃ r, ((ofConfig ⟨0, true, 0⟩).run motionless).state.constraints.get?
      ⟨⟨.slack, false, 1⟩, none⟩ = some r := Option.isSome_iff_exists.mp (by decide +kernel)
  refine ⟨⟨_, hinsert, hrun.1 _ _ _ ((Variable.external 0).overLayout_heldAt 5) hweak
    (by decide +kernel) hinsert⟩, ?_, ⟨_, hclose, hrun'.2.2 (by decide +kernel) _ hclose⟩⟩
  exact (hrun.2.1 _ r hr).resolve_right fun hfailed => hkept hfailed.1

end Solver

end Cassowary
