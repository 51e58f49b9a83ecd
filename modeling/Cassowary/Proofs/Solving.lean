import Cassowary.Proofs.Signs

/-!
# What solving comes to

Both simplex methods pivot, so they keep what a tableau represents. In exact arithmetic the primal
method keeps the rows feasible and ends with an optimal objective; the dual method keeps the
objective optimal and ends with feasible rows. So solving leads to a tableau that is both, if it
starts from one that is either.

A method that fails for another reason than its limit has found a certificate. A tableau that is
feasible is never found to contradict itself.

What holds in exact arithmetic only is stated under the condition `exact`; the rest is true of
rational arithmetic with any tolerance for signs.

## Main definitions

* `Tableau.Prepared` — what both methods start from and keep
* `Tableau.Sound` — what a tableau is like between two operations
* `Certified` — what a failure tells about the constraints
* `Tableau.Enduring` — a property that the pivots of the methods keep

## Main results

* `Tableau.ensures_optimize`, `Tableau.ensures_dualOptimize` — the two methods
* `Tableau.ensures_solve`, `Tableau.ensures_finish` — a sound tableau, or a certificate
-/

namespace Cassowary

/-- What a failure tells about the solutions and the cost: contradictory constraints have no
admissible solution, and what can be made as small as one likes has no bound. -/
def Certified (exact quiet : Prop) (S : Assignment Rat → Prop) (cost : Assignment Rat → Rat) :
    SolverError → Prop
  | .unsatisfiable => exact → quiet → ¬ ∃ v, S v ∧ v.Admissible
  | .unbounded => exact → ¬ Bounded S cost
  | .iterationLimit _ | .indexSpaceExhausted _ => True
  | _ => False

theorem Bounded.add_const {S : Assignment Rat → Prop} {cost : Assignment Rat → Rat}
    (h : Bounded S cost) (x : Rat) : Bounded S fun v => cost v + x := by
  obtain ⟨bound, hbound⟩ := h
  exact ⟨bound + x, fun v hv hnonneg => by linarith [hbound v hv hnonneg]⟩

namespace Tableau

open Attempt

variable {t t' : Tableau Rat} {S S' : Assignment Rat → Prop}
  {cost cost' value : Assignment Rat → Rat}
  {row : Row Rat} {k entering leaving : Key} {target : Target} {exact quiet : Prop}

/-! ## Invariants -/

/-- What both methods keep. Markers of required equalities need to be idle only where it is said
that they are quiet. -/
structure Prepared (exact quiet : Prop) (t : Tableau Rat) (S : Assignment Rat → Prop)
    (cost : Assignment Rat → Rat) : Prop where
  canonical : t.Canonical S cost
  epsilon : exact → t.epsilon = 0
  queued : exact → t.Queued
  idle : exact → quiet → t.DummiesIdle

/-- What holds between two operations. The objective is optimal unless that was put off. -/
structure Sound (exact quiet : Prop) (t : Tableau Rat) (S : Assignment Rat → Prop)
    (cost : Assignment Rat → Rat) : Prop where
  prepared : t.Prepared exact quiet S cost
  queue : t.infeasible = []
  optimal : exact → t.deferred = false → t.objective.Minimal

namespace Prepared

theorem represents (h : t.Prepared exact quiet S cost) : t.Represents S cost :=
  h.canonical.represents

theorem congr (h : t.Prepared exact quiet S cost) (hS : ∀ v, S v ↔ S' v)
    (hcost : ∃ offset, ∀ v, S' v → cost v + offset = cost' v) : t.Prepared exact quiet S' cost' :=
  ⟨h.canonical.congr hS hcost, h.epsilon, h.queued, h.idle⟩

theorem congr_left (h : t.Prepared exact quiet S cost) (hS : ∀ v, S v ↔ S' v) :
    t.Prepared exact quiet S' cost :=
  ⟨h.canonical.congr_left hS, h.epsilon, h.queued, h.idle⟩

/-- Counts do not matter, nor does an artificial objective that is dropped. -/
theorem of_eq (h : t.Prepared exact quiet S cost) (hrows : t'.rows = t.rows)
    (hobjective : t'.objective = t.objective)
    (hartificial : t'.artificial = t.artificial ∨ t'.artificial = none)
    (hid : t.nextId ≤ t'.nextId) (hqueue : t'.infeasible = t.infeasible)
    (hepsilon : t'.epsilon = t.epsilon) : t'.Prepared exact quiet S cost where
  canonical := h.canonical.of_eq hrows hobjective hartificial hid fun _ hk => hqueue ▸ hk
  epsilon hexact := hepsilon.trans (h.epsilon hexact)
  queued hexact := (h.queued hexact).of_eq hrows hqueue hepsilon
  idle hexact hquiet := (h.idle hexact hquiet).of_eq hrows

theorem pivot (h : t.Prepared exact quiet S cost) (hrow : t.rows.get? leaving = some row)
    (hcoefficient : row.coefficientFor entering ≠ 0) (hentering : entering.pivotable = true)
    (hleaving : leaving.unrestricted = false) :
    (t.pivot entering leaving).Prepared exact quiet S cost where
  canonical := h.canonical.pivot hrow hcoefficient hleaving
  epsilon hexact := (epsilon_pivot t _ _).trans (h.epsilon hexact)
  queued hexact := (h.queued hexact).pivot entering leaving
  idle hexact hquiet := (h.idle hexact hquiet).pivot h.represents hrow hentering

/-- A tableau with an empty queue is feasible. -/
theorem feasible (h : t.Prepared exact quiet S cost) (hexact : exact) (hqueue : t.infeasible = []) :
    t.Feasible :=
  feasible_of_violates (h.epsilon hexact) fun _ _ hrow =>
    (h.queued hexact).violates_eq_false (by rw [hqueue]; rfl) hrow

/-- In a feasible tableau, nothing in the queue is violated. -/
theorem nextViolated_eq_none (h : t.Prepared exact quiet S cost) (hexact : exact)
    (hfeasible : t.Feasible) : t.nextViolated t.infeasible = none := by
  cases hnext : t.nextViolated t.infeasible with
  | none => rfl
  | some found =>
    obtain ⟨leaving, row, rest⟩ := found
    obtain ⟨hrow, hneg, -⟩ := nextViolated_eq_some hnext
    rw [h.epsilon hexact, neg_zero] at hneg
    have hleaving := h.canonical.queue leaving (mem_of_nextViolated hnext)
    exact absurd hneg (not_lt.mpr (hfeasible leaving row hrow hleaving))

end Prepared

theorem Sound.feasible (h : t.Sound exact quiet S cost) (hexact : exact) : t.Feasible :=
  h.prepared.feasible hexact h.queue

theorem Sound.congr (h : t.Sound exact quiet S cost) (hS : ∀ v, S v ↔ S' v)
    (hcost : ∃ offset, ∀ v, S' v → cost v + offset = cost' v) : t.Sound exact quiet S' cost' :=
  ⟨h.prepared.congr hS hcost, h.queue, h.optimal⟩

/-! ## The methods -/

/-- Where nothing may leave the basis for a variable that improves the target, the target has no
bound. -/
theorem not_bounded_of_impossible (hr : t.Represents S cost) (hepsilon : t.epsilon = 0)
    (hfeasible : t.Feasible) (hmeasures : t.Measures target S value) {cause : SolverError}
    (hrule : primalRule target t = (.impossible cause, t')) : ¬ Bounded S value := by
  obtain ⟨-, -, row, entering, hrow, hentering, hleaving⟩ := primalRule_impossible hrule
  have hneg := (entering?_eq_some_rat hentering).2
  rw [hepsilon, neg_zero, not_le] at hneg
  exact not_bounded hr hfeasible hmeasures hrow hneg hleaving

/-- From a feasible tableau, the primal method keeps it feasible and ends where nothing improves the
target. It fails only if the target has no bound. -/
theorem ensures_optimize (h : t.Prepared exact quiet S cost) (hmeasures : t.Measures target S value)
    (hfeasible : exact → t.Feasible) :
    Ensures (optimize target) t
      (fun _ t' => t'.Prepared exact quiet S cost ∧ t'.Measures target S value ∧
        (exact → t'.Feasible ∧ ∀ row, t'.targetRow target = some row → row.Minimal))
      fun cause _ => (∃ n, cause = .iterationLimit n) ∨
        cause = .unbounded ∧ (exact → ¬ Bounded S value) := by
  -- On the way the rows stay feasible, and the target measures the same
  refine ensures_iterate (P := fun t => t.Prepared exact quiet S cost ∧
    t.Measures target S value ∧ (exact → t.Feasible)) ?_ ?_ ?_ ?_ _ ⟨h, hmeasures, hfeasible⟩
  · rintro t t' ⟨h, hmeasures, hfeasible⟩ hrule
    obtain ⟨rfl, hnone⟩ := primalRule_finished hrule
    exact ⟨h, hmeasures, fun hexact => ⟨hfeasible hexact, fun row hrow =>
      minimal_of_entering?_eq_none (h.epsilon hexact) (hnone row hrow)⟩⟩
  · rintro t t' cause ⟨h, hmeasures, hfeasible⟩ hrule
    exact .inr ⟨(primalRule_impossible hrule).2.1, fun hexact =>
      not_bounded_of_impossible h.represents (h.epsilon hexact) (hfeasible hexact) hmeasures hrule⟩
  · rintro t t' entering leaving ⟨h, hmeasures, hfeasible⟩ hrule
    obtain ⟨rfl, goal, hgoal, hentering, hleaving⟩ := primalRule_pivot hrule
    obtain ⟨row, hrow, hrestricted, hneg⟩ := leaving?_eq_some hleaving
    exact ⟨h.pivot hrow hneg.ne (entering?_eq_some_rat hentering).1 hrestricted,
      hmeasures.pivot h.represents hrow hneg.ne,
      fun hexact => (hfeasible hexact).pivot h.represents.separated.eliminated hleaving⟩
  · exact fun _ _ => .inl ⟨_, rfl⟩

/-- Where nothing improves the objective, the primal method does nothing. -/
theorem optimize_of_minimal (hepsilon : t.epsilon = 0) (h : t.objective.Minimal) :
    optimize .objective t = .ok () t := by
  have hrule : primalRule .objective t = (.finished, t) := by
    cases hentering : t.entering? t.objective with
    | none =>
      unfold primalRule targetRow
      rw [Option.bind_some, hentering]
    | some entering =>
      obtain ⟨hpivotable, hneg⟩ := entering?_eq_some_rat hentering
      rw [hepsilon, neg_zero] at hneg
      exact absurd (h entering hpivotable) hneg
  exact iterate_of_finished hrule _ _

/-- The tableau from which the dual method pivots. -/
theorem Prepared.dual_pivot (h : t.Prepared exact quiet S cost) {rest : List Key}
    (hnext : t.nextViolated t.infeasible = some (leaving, row, rest))
    (hentering : t.dualEntering? row = some entering) :
    ({ t with infeasible := rest }.pivot entering leaving).Prepared exact quiet S cost := by
  obtain ⟨hrow, -, skipped, hqueue, hskipped⟩ := nextViolated_eq_some hnext
  obtain ⟨hpivotable, hpos⟩ := dualEntering?_eq_some_rat hentering
  have hleaving := h.canonical.queue leaving (mem_of_nextViolated hnext)
  have hrest : ({ t with infeasible := rest } : Tableau Rat).Canonical S cost :=
    h.canonical.of_eq rfl rfl (.inl rfl) le_rfl fun _ hk => subset_of_nextViolated hnext hk
  refine ⟨hrest.pivot hrow hpos.ne' hleaving, fun hexact => ?_, fun hexact => ?_,
    fun hexact hquiet => ?_⟩
  · exact (epsilon_pivot _ _ _).trans (h.epsilon hexact)
  · exact (h.queued hexact).dual_pivot hrow hqueue hskipped
  · exact DummiesIdle.pivot ((h.idle hexact hquiet).of_eq rfl) hrest.represents hrow hpivotable

/-- When nothing in the queue is violated, the queue may go. -/
theorem Prepared.clearQueue (h : t.Prepared exact quiet S cost)
    (hnone : t.nextViolated t.infeasible = none) :
    Prepared exact quiet { t with infeasible := [] } S cost where
  canonical := h.canonical.of_eq rfl rfl (.inl rfl) le_rfl fun _ hk => absurd hk List.not_mem_nil
  epsilon := h.epsilon
  queued hexact k row hrow hviolates := by
    have hfalse := (h.queued hexact).violates_eq_false hnone hrow
    exact absurd hviolates (Bool.eq_false_iff.mp hfalse)
  idle hexact hquiet := (h.idle hexact hquiet).of_eq rfl

/-- A violated row without a variable that may enter cannot be met: it gives its key a negative
value at every admissible assignment. -/
theorem Prepared.not_exists_admissible (h : t.Prepared exact quiet S cost) (hexact : exact)
    {rest : List Key} (hnext : t.nextViolated t.infeasible = some (leaving, row, rest))
    (hentering : t.dualEntering? row = none) : ¬ ∃ v, S v ∧ v.Admissible := by
  rintro ⟨v, hv, hadmissible⟩
  obtain ⟨hrow, hneg, -⟩ := nextViolated_eq_some hnext
  rw [h.epsilon hexact, neg_zero] at hneg
  have hleaving := h.canonical.queue leaving (mem_of_nextViolated hnext)
  have hle := Row.evaluate_le_constant (fun k hk => nonpos_of_dualEntering?_eq_none hentering hk)
    (fun k hk => h.canonical.layered.row hrow hleaving hk) hadmissible
  rw [h.represents.evaluate_row hrow hv] at hle
  have hnonneg := hadmissible.nonnegative leaving hleaving
  linarith

/-- From an optimal objective, the dual method keeps it optimal and ends with an empty queue. It
fails only if a row cannot be met, and never if all rows are feasible from the start. -/
theorem ensures_dualOptimize (h : t.Prepared exact quiet S cost)
    (hminimal : exact → t.objective.Minimal) :
    Ensures dualOptimize t
      (fun _ t' => t'.Prepared exact quiet S cost ∧ t'.infeasible = [] ∧
        (exact → t'.objective.Minimal))
      fun cause _ => (∃ n, cause = .iterationLimit n) ∨
        cause = .unsatisfiable ∧ (exact → ¬ t.Feasible ∧ ¬ ∃ v, S v ∧ v.Admissible) := by
  -- On the way the objective is optimal, and the rows are feasible if they were so at the start
  refine ensures_iterate (P := fun t' => t'.Prepared exact quiet S cost ∧
    (exact → t'.objective.Minimal) ∧ (exact → t.Feasible → t'.Feasible)) ?_ ?_ ?_ ?_ _
    ⟨h, hminimal, fun _ hfeasible => hfeasible⟩
  · rintro t' t'' ⟨h, hminimal, -⟩ hrule
    obtain ⟨rfl, hnone⟩ := dualRule_finished hrule
    exact ⟨h.clearQueue hnone, rfl, hminimal⟩
  · rintro t' t'' cause ⟨h, -, hfeasible⟩ hrule
    obtain ⟨rfl, leaving, row, rest, -, hnext, hentering⟩ := dualRule_impossible hrule
    refine .inr ⟨rfl, fun hexact =>
      ⟨fun hstart => ?_, h.not_exists_admissible hexact hnext hentering⟩⟩
    rw [h.nextViolated_eq_none hexact (hfeasible hexact hstart)] at hnext
    cases hnext
  · rintro t' t'' entering leaving ⟨h, hminimal, hfeasible⟩ hrule
    obtain ⟨row, rest, rfl, hnext, hentering⟩ := dualRule_pivot hrule
    refine ⟨h.dual_pivot hnext hentering, fun hexact => ?_, fun hexact hstart => ?_⟩
    · obtain ⟨hrow, -⟩ := nextViolated_eq_some hnext
      have hrest : ({ t' with infeasible := rest } : Tableau Rat).Represents S cost :=
        h.represents.of_eq rfl rfl (.inl rfl) le_rfl
      exact minimal_dual_pivot hrest.separated (h.epsilon hexact) (hminimal hexact) hrow hentering
    · rw [h.nextViolated_eq_none hexact (hfeasible hexact hstart)] at hnext
      cases hnext
  · exact fun _ _ => .inl ⟨_, rfl⟩

/-- The second half of solving: from an optimal objective to a sound tableau. -/
theorem ensures_solve_dual (h : t.Prepared exact quiet S cost)
    (hminimal : exact → t.objective.Minimal) :
    Ensures (dualOptimize >>= fun _ => modify fun t => { t with deferred := false }) t
      (fun _ t' => t'.Sound exact quiet S cost ∧ t'.deferred = false)
      fun cause _ => Certified exact quiet S cost cause ∧
        (cause = .unsatisfiable → exact → ¬ t.Feasible) := by
  rw [ensures_bind]
  refine (ensures_dualOptimize h hminimal).imp ?_ ?_
  · rintro _ t' ⟨h', hqueue, hminimal⟩
    rw [ensures_modify]
    exact ⟨⟨h'.of_eq rfl rfl (.inl rfl) le_rfl rfl rfl, hqueue,
      fun hexact _ => hminimal hexact⟩, rfl⟩
  · rintro cause t' (⟨n, rfl⟩ | ⟨rfl, hcertificate⟩)
    · exact ⟨trivial, fun hcause => by cases hcause⟩
    · exact ⟨fun hexact _ => (hcertificate hexact).2, fun _ hexact => (hcertificate hexact).1⟩

/-- Solving leads from a feasible tableau, or from one with an optimal objective, to a sound one. -/
theorem ensures_solve (h : t.Prepared exact quiet S cost)
    (hsign : exact → t.Feasible ∨ t.objective.Minimal) :
    Ensures solve t (fun _ t' => t'.Sound exact quiet S cost ∧ t'.deferred = false)
      fun cause _ => Certified exact quiet S cost cause ∧
        (cause = .unsatisfiable → exact → ¬ t.Feasible) := by
  unfold solve
  rw [ensures_bind]
  -- An optimal objective leaves the primal method nothing to do; otherwise the rows are feasible
  by_cases hminimal : exact ∧ t.objective.Minimal
  · unfold Ensures
    rw [optimize_of_minimal (h.epsilon hminimal.1) hminimal.2]
    exact ensures_solve_dual h fun _ => hminimal.2
  · have hfeasible : exact → t.Feasible := fun hexact =>
      (hsign hexact).resolve_right fun hmin => hminimal ⟨hexact, hmin⟩
    obtain ⟨x, hmeasures⟩ := h.represents.exists_measures
    refine (ensures_optimize h hmeasures hfeasible).imp ?_ ?_
    · rintro _ t' ⟨h', -, hoptimal⟩
      refine (ensures_solve_dual h' fun hexact => (hoptimal hexact).2 _ rfl).imp (fun _ _ => id) ?_
      exact fun cause _ ⟨hcertified, hinfeasible⟩ => ⟨hcertified, fun hcause hexact =>
        absurd (hoptimal hexact).1 (hinfeasible hcause hexact)⟩
    · rintro cause t' (⟨n, rfl⟩ | ⟨rfl, hbounded⟩)
      · exact ⟨trivial, fun hcause => by cases hcause⟩
      · exact ⟨fun hexact hcost => hbounded hexact (hcost.add_const _),
          fun hcause => by cases hcause⟩

/-- Where the cost has a bound, catching up on what was put off fails only for the limit. -/
theorem ensures_solve_of_sound (h : t.Sound exact quiet S cost)
    (hbounded : exact → Bounded S cost) :
    Ensures solve t (fun _ t' => t'.Sound exact quiet S cost ∧ t'.deferred = false)
      fun cause _ => (∀ S' cost', Certified exact quiet S' cost' cause) ∧
        (cause = .unsatisfiable → ¬ exact) := by
  refine (ensures_solve h.prepared fun hexact => .inl (h.feasible hexact)).imp (fun _ _ => id) ?_
  rintro cause _ ⟨hcertified, hinfeasible⟩
  have hnot : cause = .unsatisfiable → ¬ exact := fun hcause hexact =>
    hinfeasible hcause hexact (h.feasible hexact)
  refine ⟨fun S' cost' => ?_, hnot⟩
  cases cause with
  | unsatisfiable => exact fun hexact => absurd hexact (hnot rfl)
  | unbounded => exact fun hexact => absurd (hbounded hexact) (hcertified hexact)
  | _ => exact hcertified

/-- An operation ends with a sound tableau, whether it solves or puts that off. -/
theorem ensures_finish (defer : Bool) (h : t.Prepared exact quiet S cost)
    (hsign : exact → t.Feasible ∨ t.objective.Minimal) :
    Ensures (finish defer) t
      (fun _ t' => t'.Sound exact quiet S cost ∧ (defer = false → t'.deferred = false))
      fun cause _ => Certified exact quiet S cost cause ∧
        (cause = .unsatisfiable → exact → ¬ t.Feasible) := by
  refine ensures_finish_of (fun hdefer hqueue => ?_) fun _ =>
    (ensures_solve h hsign).imp (fun _ _ h => ⟨h.1, fun _ => h.2⟩) fun _ _ => id
  exact ⟨⟨h.of_eq rfl rfl (.inl rfl) le_rfl rfl rfl, hqueue, fun _ => nofun⟩, fun hno =>
    absurd (hno.symm.trans hdefer) nofun⟩

/-! ## What pivots do not touch -/

/-- What pivots keep, the dual method keeps, if it does not depend on the queue. -/
theorem keeps_dualOptimize {P : Tableau Rat → Prop}
    (hqueue : ∀ (t : Tableau Rat) queue, P t → P { t with infeasible := queue })
    (hpivot : ∀ (t : Tableau Rat) entering leaving, P t → P (t.pivot entering leaving)) :
    Keeps dualOptimize P := by
  have hrule : ∀ {t t' : Tableau Rat} {choice}, P t → dualRule t = (choice, t') → P t' := by
    intro t t' choice h hrule
    cases choice with
    | finished =>
      obtain ⟨rfl, -⟩ := dualRule_finished hrule
      exact hqueue t _ h
    | impossible cause =>
      obtain ⟨-, _, _, rest, rfl, -⟩ := dualRule_impossible hrule
      exact hqueue t rest h
    | pivot entering leaving =>
      obtain ⟨_, rest, rfl, -⟩ := dualRule_pivot hrule
      exact hqueue t rest h
  exact fun t h =>
    ensures_iterate (P := P) hrule hrule (fun h heq => hpivot _ _ _ (hrule h heq)) hrule _ h

theorem keeps_optimize {P : Tableau Rat → Prop} (target : Target)
    (hpivot : ∀ (t : Tableau Rat) entering leaving, P t → P (t.pivot entering leaving)) :
    Keeps (optimize target) P := fun _ h =>
  ensures_iterate (P := P) (fun h hrule => (primalRule_finished hrule).1 ▸ h)
    (fun h hrule => (primalRule_impossible hrule).1 ▸ h)
    (fun h hrule => hpivot _ _ _ ((primalRule_pivot hrule).1 ▸ h))
    (fun h hrule => (primalRule_pivot hrule).1 ▸ h) _ h

/-- No symbols are given out while solving. -/
theorem keeps_solve_nextId (n : Nat) :
    Keeps (solve : Attempt (Tableau Rat) Unit) fun t => t.nextId = n := by
  have hpivot : ∀ (t : Tableau Rat) (entering leaving : Key), t.nextId = n →
      (t.pivot entering leaving).nextId = n := fun _ _ _ h => (nextId_pivot _ _ _).trans h
  exact (keeps_optimize .objective hpivot).bind fun _ =>
    (keeps_dualOptimize (fun _ _ h => h) hpivot).bind fun _ => keeps_modify fun _ h => h

/-! ## What the methods keep -/

/-- A property that pivots keep between variables that may be other than zero and symbols. Counts
and settings do not matter to it, and queued keys and the artificial objective may go. -/
structure Enduring (P : Tableau Rat → Prop) : Prop where
  of_eq : ∀ {t t' : Tableau Rat}, P t → t'.rows = t.rows → t'.objective = t.objective →
    t'.artificial = t.artificial ∨ t'.artificial = none → t.nextId ≤ t'.nextId →
    (∀ k ∈ t'.infeasible, k ∈ t.infeasible) → P t'
  queue : ∀ {t : Tableau Rat}, P t → t.QueueRestricted
  pivot : ∀ {t : Tableau Rat} {row : Row Rat} {entering leaving : Key}, P t →
    t.rows.get? leaving = some row → row.coefficientFor entering ≠ 0 → entering.pivotable = true →
    leaving.unrestricted = false → P (t.pivot entering leaving)

namespace Enduring

variable {P : Tableau Rat → Prop}

/-- The dual rule takes keys from the queue only. -/
theorem of_dualRule (hP : Enduring P) {choice : Choice} (h : P t)
    (hrule : dualRule t = (choice, t')) : P t' := by
  cases choice with
  | finished =>
    obtain ⟨rfl, -⟩ := dualRule_finished hrule
    exact hP.of_eq h rfl rfl (.inl rfl) le_rfl fun _ hk => absurd hk List.not_mem_nil
  | impossible cause =>
    obtain ⟨-, _, _, rest, rfl, hnext, -⟩ := dualRule_impossible hrule
    exact hP.of_eq h rfl rfl (.inl rfl) le_rfl fun _ hk => subset_of_nextViolated hnext hk
  | pivot entering leaving =>
    obtain ⟨_, rest, rfl, hnext, -⟩ := dualRule_pivot hrule
    exact hP.of_eq h rfl rfl (.inl rfl) le_rfl fun _ hk => subset_of_nextViolated hnext hk

theorem optimize (hP : Enduring P) (target : Target) : Keeps (Tableau.optimize target) P := by
  intro t h
  refine ensures_iterate (P := P) (fun h hrule => ?_) (fun h hrule => ?_) (fun h hrule => ?_)
    (fun h hrule => ?_) t.maxIterations h
  · rwa [(primalRule_finished hrule).1]
  · rwa [(primalRule_impossible hrule).1]
  · obtain ⟨rfl, _, -, hentering, hleaving⟩ := primalRule_pivot hrule
    obtain ⟨row, hrow, hrestricted, hneg⟩ := leaving?_eq_some hleaving
    exact hP.pivot h hrow hneg.ne (entering?_eq_some_rat hentering).1 hrestricted
  · rwa [(primalRule_pivot hrule).1]

theorem dualOptimize (hP : Enduring P) : Keeps Tableau.dualOptimize P := by
  intro t h
  refine ensures_iterate (P := P) (fun h hrule => hP.of_dualRule h hrule)
    (fun h hrule => hP.of_dualRule h hrule) (fun h hrule => ?_)
    (fun h hrule => hP.of_dualRule h hrule) t.maxIterations h
  have h' := hP.of_dualRule h hrule
  obtain ⟨row, rest, rfl, hnext, hentering⟩ := dualRule_pivot hrule
  obtain ⟨hrow, -⟩ := nextViolated_eq_some hnext
  obtain ⟨hpivotable, hpos⟩ := dualEntering?_eq_some_rat hentering
  exact hP.pivot h' hrow hpos.ne' hpivotable (hP.queue h _ (mem_of_nextViolated hnext))

theorem solve (hP : Enduring P) : Keeps Tableau.solve P :=
  (hP.optimize .objective).bind fun _ => hP.dualOptimize.bind fun _ =>
    keeps_modify fun _ h => hP.of_eq h rfl rfl (.inl rfl) le_rfl fun _ => id

theorem finish (hP : Enduring P) (defer : Bool) : Keeps (Tableau.finish defer) P := fun t h =>
  ensures_finish_of (fun _ _ => hP.of_eq h rfl rfl (.inl rfl) le_rfl fun _ => id) fun _ =>
    hP.solve t h

end Enduring

end Tableau

end Cassowary
