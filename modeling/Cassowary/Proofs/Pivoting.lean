import Cassowary.Proofs.Loops
import Cassowary.Proofs.Signs
import Cassowary.Proofs.WorkList

/-!
# What the pivots of the two methods keep

Each method starts from a tableau that has what the method lives on, and keeps it with every pivot,
so it is there however the method ends.

The primal method lives on rows that are feasible. The row that bounds the entering variable the
most leaves, so no other row becomes infeasible: nothing is queued, and what is minimised goes down
or stays. Constants follow from coefficients alone, so nothing is asked of how rows are stored, and
the tolerance may be any that is not negative.

The dual method lives on its queue. A pivot may make any number of rows infeasible, and the same row
more than once, but it queues whatever it makes so. Keys that are queued twice, or no more
infeasible, cost no pivot. No law of arithmetic is used.

Neither method lets a layout variable leave the basis, and the dual one lets none enter.

## Main definitions

* `Tableau.Descends` — where the primal method may take a tableau
* `Tableau.WorksOff` — where the dual method may take one
* `Tableau.DualEnd` — what the dual method has done when it ends

## Main results

* `Tableau.optimize_descends` — the primal method, after every pivot and wherever it ends
* `Tableau.dualOptimize_works_off` — the dual method, within its limit
-/

namespace Cassowary

namespace Tableau

open Attempt

/-! ## The primal method -/

section Primal

variable {t t' t'' : Tableau Rat} {row : Row Rat} {k entering leaving : Key} {target : Target}
  {n : Nat}

/-- A row that is not negative is not violated, whatever the tolerance. -/
theorem violates_eq_false_of_nonneg (hepsilon : 0 ≤ t.epsilon)
    (h : k.unrestricted = false → 0 ≤ row.constant) : t.violates k row = false := by
  apply Bool.eq_false_iff.mpr
  intro hviolates
  obtain ⟨hrestricted, hneg⟩ := violates_iff.mp hviolates
  exact absurd (h hrestricted) (not_le.mpr (hneg.trans_le (neg_nonpos.mpr hepsilon)))

/-- A pivot that leaves a tableau feasible queues nothing. -/
theorem infeasible_pivot_of_feasible (hepsilon : 0 ≤ t.epsilon) (he : t.Eliminated)
    (hrow : t.rows.get? leaving = some row) (hentering : row.coefficientFor entering ≠ 0)
    (hfeasible : (t.pivot entering leaving).Feasible) :
    (t.pivot entering leaving).infeasible = t.infeasible := by
  have hnonbasic : t.isBasic entering = false := Bool.eq_false_iff.mpr fun hb =>
    hentering (Row.coefficientFor_of_not_contains (he.row hrow hb))
  rw [pivot_eq hrow] at hfeasible ⊢
  refine (infeasible_enter_of_violates (t := t.eraseRow leaving) ?_ fun k' row' hrow' => ?_).trans
    (infeasible_eraseRow t leaving)
  · rw [isBasic_eraseRow, hnonbasic, Bool.and_false]
  · rw [violates_congr (epsilon_eraseRow t leaving)]
    exact violates_eq_false_of_nonneg hepsilon (hfeasible k' row' hrow')

/-- Where the primal method may take a tableau: rows stay feasible, the queue stays as it is, layout
variables stay basic, and what is minimised does not grow. -/
structure Descends (target : Target) (t t' : Tableau Rat) : Prop where
  eliminated : t'.Eliminated
  feasible : t'.Feasible
  epsilon : t'.epsilon = t.epsilon
  infeasible : t'.infeasible = t.infeasible
  isBasic : ∀ {k}, k.unrestricted = true → t.isBasic k = true → t'.isBasic k = true
  constant : ∀ {goal}, t.targetRow target = some goal →
    ∃ goal', t'.targetRow target = some goal' ∧ goal'.constant ≤ goal.constant

namespace Descends

theorem refl (he : t.Eliminated) (hfeasible : t.Feasible) : t.Descends target t :=
  ⟨he, hfeasible, rfl, rfl, fun _ => id, fun hgoal => ⟨_, hgoal, le_rfl⟩⟩

theorem trans (h : Descends target t t') (h' : Descends target t' t'') :
    Descends target t t'' where
  eliminated := h'.eliminated
  feasible := h'.feasible
  epsilon := h'.epsilon.trans h.epsilon
  infeasible := h'.infeasible.trans h.infeasible
  isBasic hk hb := h'.isBasic hk (h.isBasic hk hb)
  constant hgoal := by
    obtain ⟨goal', hgoal', hle⟩ := h.constant hgoal
    obtain ⟨goal'', hgoal'', hle'⟩ := h'.constant hgoal'
    exact ⟨goal'', hgoal'', hle'.trans hle⟩

end Descends

/-- What a primal pivot minimises changes by the coefficient of the entering variable, which is
negative, for each step of the variable, which grows. -/
theorem constant_target_pivot_le (hepsilon : 0 ≤ t.epsilon) (he : t.Eliminated)
    (hfeasible : t.Feasible) {goal : Row Rat} (hgoal : t.targetRow target = some goal)
    (hentering : t.entering? goal = some entering) (hleaving : t.leaving? entering = some leaving) :
    ∃ goal', (t.pivot entering leaving).targetRow target = some goal' ∧
      goal'.constant ≤ goal.constant := by
  obtain ⟨row, hrow, hrestricted, hneg⟩ := leaving?_eq_some hleaving
  have hslope : goal.coefficientFor entering ≤ 0 :=
    (lt_of_not_ge (entering?_eq_some_rat hentering).2).le.trans (neg_nonpos.mpr hepsilon)
  have hstep : 0 ≤ -row.constant / row.coefficientFor entering :=
    div_nonneg_of_nonpos (neg_nonpos.mpr (hfeasible _ _ hrow hrestricted)) hneg.le
  refine ⟨_, (targetRow_pivot hrow target).trans (congrArg _ hgoal), ?_⟩
  rw [Row.constant_substitute, Row.constant_solveForPair hneg.ne (he.coefficientFor_self hrow)]
  linarith [mul_nonpos_of_nonpos_of_nonneg hslope hstep]

/-- A pivot of the primal method descends from a feasible tableau. -/
theorem descends_pivot (hepsilon : 0 ≤ t.epsilon) (he : t.Eliminated) (hfeasible : t.Feasible)
    (hrule : primalRule target t = (.pivot entering leaving, t')) :
    Descends target t (t'.pivot entering leaving) := by
  obtain ⟨rfl, goal, hgoal, hentering, hleaving⟩ := primalRule_pivot hrule
  obtain ⟨row, hrow, hrestricted, hneg⟩ := leaving?_eq_some hleaving
  have hfeasible' := hfeasible.pivot he hleaving
  refine ⟨he.pivot hrow, hfeasible', epsilon_pivot _ _ _,
    infeasible_pivot_of_feasible hepsilon he hrow hneg.ne hfeasible', fun {k} hk hb => ?_,
    fun {goal'} hgoal' => ?_⟩
  · have hne : k ≠ leaving := fun heq => Bool.false_ne_true (hrestricted.symm.trans (heq ▸ hk))
    exact (isBasic_pivot_iff hrow).mpr (.inr ⟨hne, hb⟩)
  · cases hgoal.symm.trans hgoal'
    exact constant_target_pivot_le hepsilon he hfeasible hgoal hentering hleaving

/-- Any number of pivots of the primal method descend from a feasible tableau. -/
theorem descends_of_afterPivots (hepsilon : 0 ≤ t.epsilon) (he : t.Eliminated)
    (hfeasible : t.Feasible) (h : afterPivots (primalRule target) n t = some t') :
    Descends target t t' := by
  refine of_afterPivots (P := Descends target t) (fun hdescends hrule => ?_)
    (.refl he hfeasible) h
  exact hdescends.trans (descends_pivot (hdescends.epsilon.symm ▸ hepsilon) hdescends.eliminated
    hdescends.feasible hrule)

/-- From a feasible tableau, the primal method descends with every pivot, and it ends at a tableau
that some pivots have led to: because nothing improves the target, or because nothing bounds what
does, or because the limit is reached. -/
theorem optimize_descends (hepsilon : 0 ≤ t.epsilon) (he : t.Eliminated) (hfeasible : t.Feasible)
    (target : Target) :
    (∀ {n m t₁ t₂}, afterPivots (primalRule target) n t = some t₁ →
      afterPivots (primalRule target) m t₁ = some t₂ →
      Descends target t t₁ ∧ Descends target t₁ t₂) ∧
    Ensures (optimize target) t
      (fun _ u => Descends target t u ∧
        ∃ n ≤ t.maxIterations, afterPivots (primalRule target) n t = some u)
      fun cause u => Descends target t u ∧
        ∃ n ≤ t.maxIterations, afterPivots (primalRule target) n t = some u ∧
          (cause = .unbounded ∨ cause = .iterationLimit t.maxIterations ∧ n = t.maxIterations) := by
  refine ⟨fun {n m t₁ t₂} h₁ h₂ => ?_, ensures_iterate_afterPivots.imp ?_ ?_⟩
  · have hdescends := descends_of_afterPivots hepsilon he hfeasible h₁
    exact ⟨hdescends, descends_of_afterPivots (hdescends.epsilon.symm ▸ hepsilon)
      hdescends.eliminated hdescends.feasible h₂⟩
  · rintro - u ⟨n, hn, t₁, ht₁, hfinished⟩
    obtain ⟨rfl, -⟩ := primalRule_finished hfinished
    exact ⟨descends_of_afterPivots hepsilon he hfeasible ht₁, n, hn, ht₁⟩
  · rintro cause u ⟨n, hn, t₁, ht₁, himpossible | ⟨rfl, rfl, entering, leaving, hpivot⟩⟩
    · obtain ⟨rfl, rfl, -⟩ := primalRule_impossible himpossible
      exact ⟨descends_of_afterPivots hepsilon he hfeasible ht₁, n, hn, ht₁, .inl rfl⟩
    · obtain ⟨rfl, -⟩ := primalRule_pivot hpivot
      exact ⟨descends_of_afterPivots hepsilon he hfeasible ht₁, _, hn, ht₁, .inr ⟨rfl, rfl⟩⟩

/-- A slack variable. -/
def slackAt (n : Nat) : Key := .ofIndex .slack false n

/-- Two slack variables lower the objective. The row of a third one bounds them both, and that of a
fourth one allows less of the first. What is queued is long gone. -/
def sloping : Tableau Rat :=
  { Tableau.empty (1 / 100) 2 with
    rows := .ofList
      [(slackAt 2, (Row.ofConstant 4).insertAll [⟨slackAt 0, -1⟩, ⟨slackAt 1, -1⟩]),
        (slackAt 3, (Row.ofConstant 6).insert ⟨slackAt 0, -2⟩),
        ((Variable.external 0).key, (Row.ofConstant 1).insertAll [⟨slackAt 0, 1⟩, ⟨slackAt 1, -1⟩])]
    objective := (Row.ofConstant 10).insertAll [⟨slackAt 0, -3⟩, ⟨slackAt 1, -1⟩]
    infeasible := [slackAt 9] }

/-- With two pivots, the objective comes down from ten to zero. -/
theorem optimize_descends_sloping :
    0 ≤ sloping.epsilon ∧ sloping.Eliminated ∧ sloping.Feasible ∧
    ∃ u, optimize .objective sloping = .ok () u ∧ Descends .objective sloping u ∧
      u.pivots = 2 ∧ u.objective.constant = 0 := by
  have hepsilon : 0 ≤ sloping.epsilon := by decide +kernel
  have he : sloping.Eliminated := by decide +kernel
  have hfeasible : sloping.Feasible := by decide +kernel
  have hok : optimize .objective sloping = .ok () _ := eq_ok_of_outcome (by decide +kernel)
  have hends := (optimize_descends hepsilon he hfeasible .objective).2.of_eq_ok hok
  exact ⟨hepsilon, he, hfeasible, _, hok, hends.1, by decide +kernel, by decide +kernel⟩

end Primal

/-! ## The dual method -/

section Dual

variable {α : Type} [Scalar α] {t t' t'' : Tableau α} {row : Row α} {k entering leaving : Key}
  {n : Nat}

/-- Where the dual method may take a tableau: the queue misses no violated row and has no layout
variable, and the same layout variables are basic. -/
structure WorksOff (t t' : Tableau α) : Prop where
  restricted : t'.QueueRestricted
  queued : t'.Queued
  epsilon : t'.epsilon = t.epsilon
  isBasic : ∀ {k}, k.unrestricted = true → t'.isBasic k = t.isBasic k

/-- A pivot of the dual method works off the queue. -/
theorem WorksOff.pivot (h : WorksOff t t')
    (hrule : dualRule t' = (.pivot entering leaving, t'')) :
    WorksOff t (t''.pivot entering leaving) := by
  obtain ⟨row, rest, rfl, hnext, hentering⟩ := dualRule_pivot hrule
  obtain ⟨hrow, -, skipped, hqueue, hskipped⟩ := nextViolated_eq_some hnext
  obtain ⟨x, -, hpivotable, -⟩ := dualEntering?_eq_some hentering
  have hleaving : leaving.unrestricted = false := h.restricted _ (mem_of_nextViolated hnext)
  have hrest : QueueRestricted { t' with infeasible := rest } := fun k hk =>
    h.restricted k (subset_of_nextViolated hnext hk)
  refine ⟨hrest.pivot entering leaving, h.queued.dual_pivot hrow hqueue hskipped,
    (epsilon_pivot _ _ _).trans h.epsilon, fun {k} hk => ?_⟩
  have hne : k ≠ entering := fun heq =>
    Bool.false_ne_true ((Key.unrestricted_of_pivotable hpivotable).symm.trans (heq ▸ hk))
  have hne' : k ≠ leaving := fun heq => Bool.false_ne_true (hleaving.symm.trans (heq ▸ hk))
  rw [isBasic_pivot (t := { t' with infeasible := rest }) hrow, decide_eq_false hne,
    decide_eq_true hne', Bool.false_or, Bool.true_and]
  exact h.isBasic hk

/-- An end that the dual method comes to after some pivots: they are within the limit, and layout
variables are basic where they were. -/
structure DualEnd (n : Nat) (t t' : Tableau α) : Prop where
  le : n ≤ t.maxIterations
  after : ∃ t₁, afterPivots dualRule n t = some t₁ ∧ (dualRule t₁).2 = t'
  pivots : t'.pivots = t.pivots + n
  epsilon : t'.epsilon = t.epsilon
  isBasic : ∀ {k}, k.unrestricted = true → t'.isBasic k = t.isBasic k

/-- The rule takes keys from the queue, and changes nothing else. -/
theorem WorksOff.dualEnd (h : WorksOff t t') (hn : n ≤ t.maxIterations)
    (hafter : afterPivots dualRule n t = some t') {u : Tableau α} {rest : List Key}
    (hrule : (dualRule t').2 = u) (hu : u = { t' with infeasible := rest }) : DualEnd n t u := by
  subst hu
  have hpivots : t'.pivots = t.pivots + n :=
    pivots_of_afterPivots (fun _ _ _ _ => pivots_dualRule) hafter
  exact ⟨hn, ⟨t', hafter, hrule⟩, hpivots, h.epsilon, h.isBasic⟩

/-- The dual method makes at most as many pivots as its limit allows. When it succeeds, the queue is
empty and no row is violated; and however it ends, layout variables are basic where they were. -/
theorem dualOptimize_works_off (hrestricted : t.QueueRestricted) (hqueued : t.Queued) :
    (∀ {n t₁}, afterPivots dualRule n t = some t₁ → WorksOff t t₁) ∧
    Ensures dualOptimize t
      (fun _ u => (∃ n, DualEnd n t u) ∧ u.infeasible = [] ∧
        ∀ k row, u.rows.get? k = some row → k.unrestricted = false → ¬ row.constant < -u.epsilon)
      fun cause u => ∃ n, DualEnd n t u ∧
        (cause = .unsatisfiable ∨
          cause = .iterationLimit t.maxIterations ∧ n = t.maxIterations) := by
  have hworks : ∀ {n t₁}, afterPivots dualRule n t = some t₁ → WorksOff t t₁ := fun h =>
    of_afterPivots (P := WorksOff t) (fun h hrule => h.pivot hrule)
      ⟨hrestricted, hqueued, rfl, fun _ => rfl⟩ h
  refine ⟨hworks, ensures_iterate_afterPivots.imp ?_ ?_⟩
  · rintro - u ⟨n, hn, t₁, ht₁, hfinished⟩
    have h := hworks ht₁
    obtain ⟨hu, hnext⟩ := dualRule_finished hfinished
    refine ⟨⟨n, h.dualEnd hn ht₁ (congrArg Prod.snd hfinished) hu⟩, hu ▸ rfl,
      fun k row hrow hk hneg => ?_⟩
    subst hu
    -- A violated row would have been queued, and the search of the queue has found none
    have hviolates : t₁.violates k row = true := violates_iff.mpr ⟨hk, hneg⟩
    exact Bool.false_ne_true ((h.queued.violates_eq_false hnext hrow).symm.trans hviolates)
  · rintro cause u ⟨n, hn, t₁, ht₁, himpossible | ⟨rfl, rfl, entering, leaving, hpivot⟩⟩
    · obtain ⟨rfl, leaving, row, rest, hu, -⟩ := dualRule_impossible himpossible
      exact ⟨n, (hworks ht₁).dualEnd hn ht₁ (congrArg Prod.snd himpossible) hu, .inl rfl⟩
    · obtain ⟨row, rest, hu, -⟩ := dualRule_pivot hpivot
      exact ⟨_, (hworks ht₁).dualEnd hn ht₁ (congrArg Prod.snd hpivot) hu, .inr ⟨rfl, rfl⟩⟩

/-- The row of a slack variable is queued twice, between keys that are fine or gone. When it has
been repaired, another row is to be. -/
def backlog : Tableau Rat :=
  { Tableau.empty (1 / 100) 2 with
    rows := .ofList
      [(slackAt 2, (Row.ofConstant (-3)).insertAll [⟨slackAt 0, 1⟩, ⟨slackAt 1, 2⟩]),
        (slackAt 3, (Row.ofConstant 5).insert ⟨slackAt 0, -1⟩),
        (slackAt 4, (Row.ofConstant 1).insert ⟨slackAt 1, -1⟩),
        ((Variable.external 0).key, (Row.ofConstant 1).insert ⟨slackAt 0, 1⟩)]
    objective := (Row.ofConstant 0).insertAll [⟨slackAt 0, 2⟩, ⟨slackAt 1, 1⟩]
    infeasible := [slackAt 9, slackAt 2, slackAt 3, slackAt 2] }

/-- From the backlog, two pivots of the dual method repair both rows. -/
theorem dualOptimize_works_off_backlog :
    backlog.QueueRestricted ∧ backlog.Queued ∧
    ∃ u, dualOptimize backlog = .ok () u ∧ (∃ n, DualEnd n backlog u) ∧ u.pivots = 2 ∧
      u.infeasible = [] ∧
      ∀ k row, u.rows.get? k = some row → k.unrestricted = false → ¬ row.constant < -u.epsilon := by
  have hrestricted : backlog.QueueRestricted := by decide +kernel
  have hqueued : backlog.Queued := by decide +kernel
  have hok : dualOptimize backlog = .ok () _ := eq_ok_of_outcome (by decide +kernel)
  have hends := (dualOptimize_works_off hrestricted hqueued).2.of_eq_ok hok
  exact ⟨hrestricted, hqueued, _, hok, hends.1, by decide +kernel, hends.2⟩

end Dual

end Tableau

end Cassowary
