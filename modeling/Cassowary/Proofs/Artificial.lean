import Cassowary.Proofs.Equation

/-!
# Equations behind an artificial variable

An equation that cannot be solved for a variable of its own is installed as the row of an artificial
variable, which the primal method then makes as small as possible. On all solutions the artificial
variable is the value of the equation, whatever the basis is. So if it cannot be made zero, no
admissible assignment meets the equation; and if it is zero, its row still has a variable that can
be basic in its place, since the equation has one.

## Main results

* `Tableau.Prepared.behind` — the equation behind the artificial variable
* `Tableau.ensures_retireArtificial` — the artificial variable leaves the basis
* `Tableau.Prepared.dropColumn` — the artificial variable goes, and the equation stays
* `Tableau.ensures_addWithArtificial` — the whole way
-/

namespace Cassowary

namespace Row

/-- Without its term, a variable is as good as zero. -/
theorem evaluate_remove_eq (row : Row Rat) (k : Key) (v : Assignment Rat) :
    (row.remove k).evaluate v = row.evaluate (Function.update v k 0) := by
  rw [evaluate_remove, evaluate_update]
  ring

theorem not_contains_of_isEmpty {α : Type} {row : Row α} (h : row.isEmpty = true) (k : Key) :
    row.contains k = false := by
  rw [Row.contains, Table.contains, Table.get?, List.isEmpty_iff.mp h]
  rfl

theorem anyPivotable_eq_some {α : Type} {row : Row α} {k : Key} (h : row.anyPivotable = some k) :
    k.pivotable = true ∧ row.contains k = true :=
  ⟨List.find?_some h, contains_iff_mem_keys.mpr (List.mem_of_find?_eq_some h)⟩

theorem anyPivotable_eq_none {α : Type} {row : Row α} {k : Key} (h : row.anyPivotable = none)
    (hk : k.pivotable = true) : row.contains k = false := by
  apply Bool.eq_false_iff.mpr
  intro hcontains
  exact absurd hk (List.find?_eq_none.mp h k (contains_iff_mem_keys.mp hcontains))

end Row

/-- A solution can be moved to one where a variable that nothing depends on is the value of a row
without it. -/
theorem Ignores.update_evaluate {S : Assignment Rat → Prop} {row : Row Rat} {a : Key}
    (hignores : Ignores S a) (hcontains : row.contains a = false) {v : Assignment Rat} (hv : S v) :
    S (Function.update v a (row.evaluate v)) ∧ Function.update v a (row.evaluate v) a =
      row.evaluate (Function.update v a (row.evaluate v)) := by
  refine ⟨hignores v _ hv, ?_⟩
  rw [Function.update_self, Row.evaluate_update, Row.coefficientFor_of_not_contains hcontains,
    zero_mul, add_zero]

namespace Tableau

open Attempt

variable {t t' : Tableau Rat} {S : Assignment Rat → Prop} {cost : Assignment Rat → Rat}
  {row : Row Rat} {k k' a d entering : Key} {D : Key → Prop} {exact quiet : Prop}

theorem complete_zero (hrow : t.rows.get? k = some row) :
    t.complete (fun _ => 0) k = row.constant := by
  rw [complete_of_get? hrow, Row.evaluate_zero]

/-- Where all variables that are not basic are zero, no symbol is negative. -/
theorem Feasible.complete_nonneg (h : t.Feasible) (hk : k.unrestricted = false) :
    0 ≤ t.complete (fun _ => 0) k := by
  cases hrow : t.rows.get? k with
  | some row =>
    rw [complete_zero hrow]
    exact h k row hrow hk
  | none => rw [complete_of_isBasic_eq_false (isBasic_eq_false_iff.mpr hrow)]

/-! ## The equation behind the artificial variable -/

theorem solves_behind {v : Assignment Rat} (ha : t.isBasic a = false) :
    (t.behind a row).Solves v ↔ t.Solves v ∧ v a = row.evaluate v := by
  have hget : ∀ k, (t.behind a row).rows.get? k = if k = a then some row else t.rows.get? k :=
    get?_putRow t a row
  rw [solves_iff, solves_iff]
  constructor
  · intro hv
    refine ⟨fun k r hr => hv k r ?_, hv a row (by rw [hget, if_pos rfl])⟩
    rw [hget, if_neg (ne_of_get? hr ha), hr]
  · rintro ⟨hv, hva⟩ k r hr
    rcases get?_behind_cases hr with ⟨rfl, rfl⟩ | hr
    · exact hva
    · exact hv k r hr

/-- A tableau with a row behind a new variable represents the old equations together with the one
that this variable is the value of the row. -/
theorem Represents.behind (h : t.Represents S cost) (hrow : row.Over t) (hproper : row.Proper)
    (ha : t.Known a) (hignores : Ignores S a) (hcost : CostIgnores cost a)
    (hcontains : row.contains a = false) :
    (t.behind a row).Represents (fun v => S v ∧ v a = row.evaluate v) cost where
  separated := h.separated.behind hrow ha
    (fun _ _ hr => (h.proper_row hr).contains_eq_false_iff.mpr
      (h.coefficientFor_eq_zero hignores hr))
    (h.proper_objective.contains_eq_false_iff.mpr
      (h.objective_coefficientFor_eq_zero hignores hcost))
    hcontains
  proper_row hr := by
    rcases get?_behind_cases hr with ⟨rfl, rfl⟩ | hr
    · exact hproper
    · exact h.proper_row hr
  proper_target hr := by
    rcases targetRow_behind_cases hr with rfl | rfl
    · exact hproper
    · exact h.proper_objective
  solves_iff v := by rw [solves_behind (h.isBasic_eq_false hignores), h.solves_iff]
  exists_offset := by
    obtain ⟨offset, hoffset⟩ := h.exists_offset
    exact ⟨offset, fun v hv => hoffset v hv.1⟩

theorem Layered.behind (h : t.Layered)
    (hfree : ∀ k, k.unrestricted = true → row.coefficientFor k = 0) : (t.behind a row).Layered where
  row hr hk hk' := by
    rcases get?_behind_cases hr with ⟨rfl, rfl⟩ | hr
    · exact hfree _ hk'
    · exact h.row hr hk hk'
  target hr hk' := by
    rcases targetRow_behind_cases hr with rfl | rfl
    · exact hfree _ hk'
    · exact h.objective hk'

theorem Feasible.behind (h : t.Feasible) (hnonneg : 0 ≤ row.constant) :
    (t.behind a row).Feasible := by
  intro k r hr hk
  rcases get?_behind_cases hr with ⟨rfl, rfl⟩ | hr
  · exact hnonneg
  · exact h k r hr hk

theorem Idle.behind (h : t.Idle D) (ha : ¬ D a) : (t.behind a row).Idle D := by
  intro k r hr hk
  rcases get?_behind_cases hr with ⟨rfl, rfl⟩ | hr
  · exact absurd hk ha
  · exact h k r hr hk

theorem DummiesIdle.behind (h : t.DummiesIdle) (ha : a.dummy = false) :
    (t.behind a row).DummiesIdle :=
  Idle.behind h (Bool.eq_false_iff.mp ha)

/-- A new variable that is the value of a row, both as a basic variable and as an objective. -/
theorem Prepared.behind (h : t.Prepared exact quiet S cost) (hrow : row.Over t)
    (hproper : row.Proper) (hnonneg : 0 ≤ row.constant)
    (hfree : ∀ k, k.unrestricted = true → row.coefficientFor k = 0) (ha : a.Rowless)
    (hknown : t.Known a) (hignores : Ignores S a) (hcost : CostIgnores cost a)
    (hcontains : row.contains a = false) :
    (t.behind a row).Prepared exact quiet (fun v => S v ∧ v a = row.evaluate v) cost where
  canonical :=
    { represents := h.represents.behind hrow hproper hknown hignores hcost hcontains
      layered := h.canonical.layered.behind hfree
      queue := h.canonical.queue }
  epsilon := h.epsilon
  queued hexact := by
    refine ((h.queued hexact).putRow fun hviolates => ?_).of_eq rfl rfl rfl
    have hneg := ((violates_iff_of_exact (h.epsilon hexact)).mp hviolates).2
    exact absurd hneg (not_lt.mpr hnonneg)
  idle hexact hquiet := (h.idle hexact hquiet).behind ha.dummy

theorem measures_behind (t : Tableau Rat) (a : Key) (row : Row Rat) :
    (t.behind a row).Measures .artificial (fun v => S v ∧ v a = row.evaluate v) (· a) :=
  ⟨row, rfl, fun _ hv => hv.2.symm⟩

theorem Enduring.minimizeArtificial {P : Tableau Rat → Prop} (hP : Enduring P) :
    Keeps Tableau.minimizeArtificial P := by
  intro t h
  rw [ensures_minimizeArtificial_iff]
  exact (hP.optimize .artificial t h).imp
    (fun _ _ h => hP.of_eq h rfl rfl (.inr rfl) le_rfl fun _ => id)
    fun _ _ h => hP.of_eq h rfl rfl (.inr rfl) le_rfl fun _ => id

/-- The artificial variable is made as small as possible. What is left of it is what it is where
everything else that is not basic is zero. -/
theorem ensures_minimizeArtificial (h : t.Prepared exact quiet S cost)
    (hmeasures : t.Measures .artificial S (· a)) (hfeasible : exact → t.Feasible) (ha : a.Rowless) :
    Ensures minimizeArtificial t
      (fun x t' => t'.Prepared exact quiet S cost ∧ t'.artificial = none ∧ (exact → t'.Feasible) ∧
        x = t'.complete (fun _ => 0) a ∧ (exact → ∀ v, S v → v.Admissible → x ≤ v a))
      fun cause _ => (∃ n, cause = .iterationLimit n) ∨ cause = .unbounded ∧ ¬ exact := by
  rw [ensures_minimizeArtificial_iff]
  refine (ensures_optimize h hmeasures hfeasible).imp ?_ ?_
  · rintro _ t' ⟨h', ⟨goal, hgoal, hvalue⟩, hminimal⟩
    have hgoal' : t'.artificial = some goal := hgoal
    -- The goal measures the variable, also where all that is not basic is zero
    have hzero := hvalue _ (h'.represents.solves_complete fun _ => 0)
    rw [evaluate_complete (h'.represents.separated.target hgoal)
      (h'.represents.proper_target hgoal),
      Row.evaluate_zero] at hzero
    refine ⟨h'.of_eq rfl rfl (.inr rfl) le_rfl rfl rfl, rfl, fun hexact => (hminimal hexact).1,
      by rw [hgoal']; exact hzero, fun hexact v hv hadmissible => ?_⟩
    have hle := ((hminimal hexact).2 goal hgoal).constant_le
      (fun k hk => h'.canonical.layered.target hgoal hk) hadmissible
    rw [hvalue v hv] at hle
    simpa [hgoal'] using hle
  · rintro cause _ (hlimit | ⟨rfl, hbounded⟩)
    · exact .inl hlimit
    · exact .inr ⟨rfl, fun hexact => hbounded hexact ⟨0, fun v _ hv => hv a ha.unrestricted⟩⟩

/-! ## The artificial variable leaves -/

/-- A variable whose value the solutions do not fix has terms in its row. -/
theorem Represents.exists_contains (h : t.Represents S cost) (hrow : t.rows.get? a = some row)
    {P : Key → Prop} {v w : Assignment Rat} (hv : S v) (hw : S w) (hne : v a ≠ w a)
    (hsame : ∀ k, ¬ P k → k ≠ a → row.contains k = true → v k = w k) :
    ∃ k, P k ∧ row.contains k = true := by
  by_contra hnone
  apply hne
  rw [← h.evaluate_row hrow hv, ← h.evaluate_row hrow hw]
  apply Row.evaluate_congr
  intro k hk
  have hcontains : row.contains k = true := (h.proper_row hrow).contains_iff.mpr hk
  refine hsame k (fun hP => hnone ⟨k, hP, hcontains⟩) ?_ hcontains
  rintro rfl
  exact hk (h.coefficientFor_self hrow)

/-- If a basic artificial variable can be moved while the dummies stay where they are, its row has a
variable that may enter the basis. -/
theorem Represents.exists_anyPivotable (h : t.Represents S cost) (hlayered : t.Layered)
    (hrow : t.rows.get? a = some row) (ha : a.Rowless)
    (hmoves : ∃ v w, S v ∧ S w ∧ v a ≠ w a ∧
      ∀ k, k.unrestricted = false → k.pivotable = false → k ≠ a → v k = w k) :
    ∃ k, row.anyPivotable = some k := by
  obtain ⟨v, w, hv, hw, hne, hsame⟩ := hmoves
  have hproper := h.proper_row hrow
  obtain ⟨k, hk, hcontains⟩ := h.exists_contains (P := fun k => k.pivotable = true) hrow hv hw hne
    fun k hk hka hcontains => by
      refine hsame k ?_ (Bool.not_eq_true _ ▸ hk) hka
      apply Bool.eq_false_iff.mpr
      intro hfree
      exact hproper.contains_iff.mp hcontains (hlayered.row hrow ha.unrestricted hfree)
  cases hany : row.anyPivotable with
  | some k => exact ⟨k, rfl⟩
  | none =>
    rw [Row.anyPivotable_eq_none hany hk] at hcontains
    cases hcontains

/-- Where the artificial variable is zero, the new row has no sign to look at. -/
theorem Prepared.replace (h : t.Prepared exact quiet S cost) (hrow : t.rows.get? a = some row)
    (hcoefficient : row.coefficientFor entering ≠ 0) (hentering : entering.pivotable = true)
    (ha : a.unrestricted = false) (hzero : exact → row.constant = 0) :
    (t.replace a entering row).Prepared exact quiet S cost := by
  have hr := h.represents
  have hpivot := h.pivot hrow hcoefficient hentering ha
  obtain ⟨queue, pivots, heq, hqueue⟩ := pivot_eq_replace hrow entering
  rw [heq] at hpivot
  refine ⟨hpivot.canonical.of_eq rfl rfl (.inl rfl) le_rfl hqueue, hpivot.epsilon, fun hexact => ?_,
    fun hexact hquiet => (hpivot.idle hexact hquiet).of_eq rfl⟩
  apply (((h.queued hexact).eraseRow a).eliminate entering _).putRow
  intro hviolates
  have hneg := ((violates_iff_of_exact (hpivot.epsilon hexact)).mp hviolates).2
  rw [Row.constant_solveForPair hcoefficient (hr.coefficientFor_self hrow),
    hzero hexact, neg_zero, zero_div] at hneg
  exact absurd hneg (lt_irrefl 0)

/-- When an artificial variable that is zero leaves the basis, no constant moves. -/
theorem Feasible.replace (h : t.Feasible) (hr : t.Represents S cost)
    (hrow : t.rows.get? a = some row) (hcoefficient : row.coefficientFor entering ≠ 0)
    (hzero : row.constant = 0) : (t.replace a entering row).Feasible := by
  obtain ⟨queue, pivots, heq, -⟩ := pivot_eq_replace hrow entering
  intro k new hnew hk
  have hnew' : (t.pivot entering a).rows.get? k = some new := by
    rw [heq]
    exact hnew
  rcases constant_pivot hr.separated.eliminated hrow hcoefficient hnew' with
    ⟨-, hconstant⟩ | ⟨-, old, hold, hconstant⟩
  · rw [hconstant, hzero, neg_zero, zero_div]
  · rw [hconstant, hzero, neg_zero, zero_div, mul_zero, add_zero]
    exact h k old hold hk

theorem isBasic_replace (hne : a ≠ entering) :
    (t.replace a entering row).isBasic a = false := by
  rw [isBasic_eq_false_iff, Tableau.replace, get?_putRow, if_neg hne, get?_eliminate, get?_eraseRow,
    if_pos rfl, Option.map_none]

theorem artificial_replace (hartificial : t.artificial = none) :
    (t.replace a entering row).artificial = none := by
  have hdropped := targetRow_eliminate (t.eraseRow a) entering (row.solveForPair a entering)
    .artificial
  rw [targetRow_eraseRow, targetRow, targetRow, hartificial] at hdropped
  exact hdropped

/-- An artificial variable that is zero leaves the basis. That fails only if all symbols of its row
are dummies. -/
theorem ensures_retireArtificial (h : t.Prepared exact quiet S cost)
    (hartificial : t.artificial = none) (hfeasible : exact → t.Feasible)
    (hzero : exact → t.complete (fun _ => 0) a = 0) (ha : a.Rowless)
    (hmoves : ∃ v w, S v ∧ S w ∧ v a ≠ w a)
    (hpivots : exact → quiet → ∃ v w, S v ∧ S w ∧ v a ≠ w a ∧
      ∀ k, k.unrestricted = false → k.pivotable = false → k ≠ a → v k = w k) :
    Ensures (retireArtificial a) t
      (fun _ t' => t'.Prepared exact quiet S cost ∧ t'.artificial = none ∧ t'.isBasic a = false ∧
        (exact → t'.Feasible))
      fun cause _ => cause = .unsatisfiable ∧ ¬ (exact ∧ quiet) := by
  have hr := h.represents
  refine ensures_retireArtificial_of
    (fun hnone => ⟨h, hartificial, isBasic_eq_false_iff.mpr hnone, hfeasible⟩)
    (fun row hrow hempty => ?_) (fun row hrow hnone => ⟨rfl, fun ⟨hexact, hquiet⟩ => ?_⟩)
    fun row entering hrow hentering => ?_
  · obtain ⟨v, w, hv, hw, hne⟩ := hmoves
    obtain ⟨k, -, hk⟩ := hr.exists_contains (P := fun _ => True) hrow hv hw hne
      fun k hk => absurd trivial hk
    rw [Row.not_contains_of_isEmpty hempty] at hk
    cases hk
  · obtain ⟨k, hk⟩ := hr.exists_anyPivotable h.canonical.layered hrow ha (hpivots hexact hquiet)
    exact absurd (hnone.symm.trans hk) nofun
  · obtain ⟨hpivotable, hcontains⟩ := Row.anyPivotable_eq_some hentering
    have hcoefficient := (hr.proper_row hrow).contains_iff.mp hcontains
    have hconstant : exact → row.constant = 0 := fun hexact =>
      (complete_zero hrow).symm.trans (hzero hexact)
    exact ⟨h.replace hrow hcoefficient hpivotable ha.unrestricted hconstant,
      artificial_replace hartificial,
      isBasic_replace (hr.entering_ne_leaving hrow hcoefficient).symm,
      fun hexact => (hfeasible hexact).replace hr hrow hcoefficient (hconstant hexact)⟩

/-! ## The column of a variable that is dropped -/

theorem targetRow_dropColumn (hartificial : t.artificial = none) {target : Target}
    (h : (t.dropColumn k).targetRow target = some row) : row = t.objective.remove k := by
  cases target with
  | objective =>
    rw [targetRow, objective_dropColumn] at h
    exact (Option.some_inj.mp h).symm
  | artificial =>
    rw [targetRow, artificial_dropColumn, hartificial] at h
    cases h

/-- Without its column, a variable that is not basic is as good as zero. -/
theorem solves_dropColumn (hk : t.isBasic k = false) {v : Assignment Rat} :
    (t.dropColumn k).Solves v ↔ t.Solves (Function.update v k 0) := by
  rw [solves_iff, solves_iff]
  constructor
  · intro hv k' r hrow
    rw [Function.update_of_ne (ne_of_get? hrow hk), ← Row.evaluate_remove_eq]
    exact hv k' _ (by rw [get?_dropColumn, hrow, Option.map_some])
  · intro hv k' r hrow
    obtain ⟨old, hold, rfl⟩ := get?_dropColumn_eq_some hrow
    have heq := hv k' old hold
    rwa [Function.update_of_ne (ne_of_get? hold hk), ← Row.evaluate_remove_eq] at heq

theorem Represents.dropColumn (h : t.Represents S cost) (hk : t.isBasic k = false)
    (hartificial : t.artificial = none) (hcost : CostIgnores cost k) :
    (t.dropColumn k).Represents (fun v => S (Function.update v k 0)) cost where
  separated := h.separated.dropColumn k
  proper_row hrow := by
    obtain ⟨old, hold, rfl⟩ := get?_dropColumn_eq_some hrow
    exact (h.proper_row hold).remove k
  proper_target hrow := by
    rw [targetRow_dropColumn hartificial hrow]
    exact h.proper_objective.remove k
  solves_iff v := by rw [solves_dropColumn hk, h.solves_iff]
  exists_offset := by
    obtain ⟨offset, hoffset⟩ := h.exists_offset
    refine ⟨offset, fun v hv => ?_⟩
    rw [objective_dropColumn, Row.evaluate_remove_eq, hoffset _ hv, hcost]

theorem Layered.dropColumn (h : t.Layered) (hartificial : t.artificial = none) (k : Key) :
    (t.dropColumn k).Layered where
  row hrow hk hk' := by
    obtain ⟨old, hold, rfl⟩ := get?_dropColumn_eq_some hrow
    rw [Row.coefficientFor_remove, h.row hold hk hk', ite_self]
  target hrow hk' := by
    rw [targetRow_dropColumn hartificial hrow, Row.coefficientFor_remove, h.objective hk', ite_self]

theorem Idle.dropColumn (h : t.Idle D) (k : Key) : (t.dropColumn k).Idle D := by
  intro k' row hrow hk'
  obtain ⟨old, hold, rfl⟩ := get?_dropColumn_eq_some hrow
  obtain ⟨hconstant, hidle⟩ := h k' old hold hk'
  refine ⟨hconstant, fun j hj => hidle j fun hzero => hj ?_⟩
  rw [Row.coefficientFor_remove, hzero, ite_self]

theorem DummiesIdle.dropColumn (h : t.DummiesIdle) (k : Key) : (t.dropColumn k).DummiesIdle :=
  Idle.dropColumn h k

theorem Feasible.dropColumn (h : t.Feasible) (k : Key) : (t.dropColumn k).Feasible := by
  intro k' row hrow hk'
  obtain ⟨old, hold, rfl⟩ := get?_dropColumn_eq_some hrow
  exact h k' old hold hk'

theorem Prepared.dropColumn (h : t.Prepared exact quiet S cost) (hk : t.isBasic k = false)
    (hartificial : t.artificial = none) (hcost : CostIgnores cost k) :
    (t.dropColumn k).Prepared exact quiet (fun v => S (Function.update v k 0)) cost where
  canonical :=
    { represents := h.represents.dropColumn hk hartificial hcost
      layered := h.canonical.layered.dropColumn hartificial k
      queue := h.canonical.queue.of_eq (infeasible_dropColumn t k) }
  epsilon hexact := (epsilon_dropColumn t k).trans (h.epsilon hexact)
  queued hexact := (h.queued hexact).dropColumn k
  idle hexact hquiet := (h.idle hexact hquiet).dropColumn k

/-! ## The whole way -/

theorem rowless_of_artificial (h : a.kind = .artificial) : a.Rowless := by
  constructor <;> simp [Key.unrestricted, Key.pivotable, Key.dummy, h, Kind.unrestricted,
    Kind.pivotable]

/-- If something is left of the artificial variable at its smallest, no admissible solution meets
the equation behind it. -/
theorem not_exists_of_least {x : Rat} (ha : a.Rowless)
    (hleast : ∀ v, S v ∧ v a = row.evaluate v → v.Admissible → x ≤ v a) (hnonneg : 0 ≤ x)
    (hx : x ≠ 0) : ¬ ∃ v, (S v ∧ row.evaluate v = 0) ∧ v.Admissible := by
  rintro ⟨v, ⟨hv, hrow⟩, hadmissible⟩
  have hva := hadmissible.eq_zero a ha.unrestricted ha.pivotable
  have hle := hleast v ⟨hv, by rw [hva, hrow]⟩ hadmissible
  rw [hva] at hle
  exact hx (le_antisymm hle hnonneg)

/-- An artificial variable is the value of its row. Where it is set to zero, this says that the
equation behind it is met. -/
theorem behind_update_iff (hignores : Ignores S a) (hcontains : row.contains a = false)
    (v : Assignment Rat) :
    (S (Function.update v a 0) ∧ Function.update v a 0 a = row.evaluate (Function.update v a 0)) ↔
      S v ∧ row.evaluate v = 0 := by
  rw [hignores.iff, Function.update_self, Row.evaluate_update,
    Row.coefficientFor_of_not_contains hcontains, zero_mul, add_zero]
  exact and_congr_right fun _ => eq_comm

/-- An artificial variable moves with the marker of its equation. -/
theorem Represents.exists_moved_marker (h : t.Represents S cost) (hignores : Ignores S a)
    (hcontains : row.contains a = false) (hd : Ignores S d)
    (hcoefficient : row.coefficientFor d ≠ 0) :
    ∃ v w, (S v ∧ v a = row.evaluate v) ∧ (S w ∧ w a = row.evaluate w) ∧ v a ≠ w a := by
  have hv := h.solves_complete fun _ => 0
  have hw := hd _ (t.complete (fun _ => 0) d + 1) hv
  refine ⟨_, _, hignores.update_evaluate hcontains hv, hignores.update_evaluate hcontains hw,
    fun heq => hcoefficient ?_⟩
  rw [Function.update_self, Function.update_self, Row.evaluate_update] at heq
  linarith

/-- An artificial variable moves with a variable of its equation that may enter the basis, and the
dummies stay where they are. -/
theorem Represents.exists_moved_pivotable (hr : t.Represents S cost) (hidle : t.DummiesIdle)
    (hplain : ∀ k : Key, k.Rowless → Ignores S k) (hrow : row.Over t) (hproper : row.Proper)
    (hignores : Ignores S a) (hcontains : row.contains a = false) {p : Key}
    (hp : p.pivotable = true) (hcoefficient : row.coefficientFor p ≠ 0) :
    ∃ v w, (S v ∧ v a = row.evaluate v) ∧ (S w ∧ w a = row.evaluate w) ∧ v a ≠ w a ∧
      ∀ k, k.unrestricted = false → k.pivotable = false → k ≠ a → v k = w k := by
  refine ⟨_, _, hignores.update_evaluate hcontains (hr.solves_complete fun _ => 0),
    hignores.update_evaluate hcontains (hr.solves_complete (Function.update (fun _ => 0) p 1)),
    fun heq => hcoefficient ?_, fun k hk hkp hka => ?_⟩
  · rw [Function.update_self, Function.update_self, evaluate_complete hrow hproper,
      evaluate_complete hrow hproper, Row.evaluate_update, sub_zero, mul_one] at heq
    linarith
  · rw [Function.update_of_ne hka, Function.update_of_ne hka]
    cases hrow' : t.rows.get? k with
    | none =>
      have hbasic := isBasic_eq_false_iff.mpr hrow'
      have hne : k ≠ p := by
        rintro rfl
        rw [hp] at hkp
        cases hkp
      rw [complete_of_isBasic_eq_false hbasic, complete_of_isBasic_eq_false hbasic,
        Function.update_of_ne hne]
    | some r =>
      have hdummy : k.dummy = true := by
        by_contra hnot
        have hbasic := hr.isBasic_eq_false (hplain k ⟨hk, hkp, Bool.not_eq_true _ ▸ hnot⟩)
        exact ne_of_get? hrow' hbasic rfl
      have hzero : r.coefficientFor p = 0 := by
        by_contra hnot
        have hpdummy := (hidle k r hrow' hdummy).2 p hnot
        rw [Key.dummy_of_pivotable hp] at hpdummy
        cases hpdummy
      rw [complete_of_get? hrow', complete_of_get? hrow', Row.evaluate_update, hzero, zero_mul,
        add_zero]

/-- An equation without a variable to solve it for is added behind an artificial variable. It is
refused only if no admissible solution meets it. -/
theorem ensures_addWithArtificial (h : t.Prepared exact quiet S cost)
    (hfeasible : exact → t.Feasible)
    (hplain : ∀ k, k.Rowless → Ignores S k ∧ CostIgnores cost k) (hrow : row.Over t)
    (hproper : row.Proper) (hnonneg : 0 ≤ row.constant)
    (hfree : ∀ k, k.unrestricted = true → row.coefficientFor k = 0) (hd : Ignores S d)
    (hcoefficient : row.coefficientFor d ≠ 0)
    (hpivotable : ∃ p, p.pivotable = true ∧ row.coefficientFor p ≠ 0) :
    Ensures (addWithArtificial row) t
      (fun _ t' => t'.Prepared exact quiet (fun v => S v ∧ row.evaluate v = 0) cost ∧
        (exact → t'.Feasible))
      fun cause _ => Certified exact quiet (fun v => S v ∧ row.evaluate v = 0) cost cause := by
  unfold addWithArtificial
  rw [ensures_bind]
  refine (ensures_newSymbol .artificial t).imp ?_ ?_
  · rintro a t₁ ⟨⟨hkind, hindex⟩, rfl⟩
    have ha := rowless_of_artificial hkind
    obtain ⟨hignores, hcost⟩ := hplain a ha
    have hcontains : row.contains a = false := Bool.eq_false_iff.mpr fun hcontains => by
      have hlt := hrow.known hcontains (by simp [Key.internal, hkind, Kind.internal])
      omega
    have h₁ : Prepared exact quiet { t with nextId := t.nextId + 1 } S cost :=
      h.of_eq rfl rfl (.inl rfl) (Nat.le_succ _) rfl rfl
    have h₂ := h₁.behind (hrow.mono (fun _ => id) (Nat.le_succ _)) hproper hnonneg hfree ha
      (fun _ => hindex ▸ Nat.lt_succ_self _) hignores hcost hcontains
    rw [ensures_bind, ensures_modify, ensures_bind]
    refine (ensures_minimizeArtificial h₂ (measures_behind _ a row)
      (fun hexact => (hfeasible hexact).behind hnonneg) ha).imp ?_ ?_
    · rintro x t₃ ⟨h₃, hartificial, hfeasible₃, rfl, hleast⟩
      rw [ensures_bind, ensures_get]
      split
      · next hresidual =>
        rw [Scalar.magnitude_rat] at hresidual
        change Certified exact quiet _ cost .unsatisfiable
        intro hexact _
        rw [h₃.epsilon hexact] at hresidual
        exact not_exists_of_least ha (hleast hexact)
          ((hfeasible₃ hexact).complete_nonneg ha.unrestricted) (abs_pos.mp hresidual)
      · next hresidual =>
        have hzero : exact → t₃.complete (fun _ => 0) a = 0 := fun hexact => by
          rw [Scalar.magnitude_rat, h₃.epsilon hexact, not_lt] at hresidual
          exact abs_nonpos_iff.mp hresidual
        rw [ensures_bind]
        refine (ensures_retireArtificial h₃ hartificial hfeasible₃ hzero ha
          (h.represents.exists_moved_marker hignores hcontains hd hcoefficient) ?_).imp ?_ ?_
        · intro hexact hquiet
          obtain ⟨p, hp, hpcoefficient⟩ := hpivotable
          exact h.represents.exists_moved_pivotable (h.idle hexact hquiet)
            (fun k hk => (hplain k hk).1) hrow hproper hignores hcontains hp hpcoefficient
        · rintro _ t₄ ⟨h₄, hartificial₄, hbasic, hfeasible₄⟩
          rw [ensures_modify]
          exact ⟨(h₄.dropColumn hbasic hartificial₄ hcost).congr_left
            (behind_update_iff hignores hcontains), fun hexact => (hfeasible₄ hexact).dropColumn a⟩
        · rintro cause t₄ ⟨rfl, hnot⟩
          exact fun hexact hquiet => absurd ⟨hexact, hquiet⟩ hnot
    · rintro cause t₃ (⟨n, rfl⟩ | ⟨rfl, hnot⟩)
      · trivial
      · exact fun hexact => absurd hexact hnot
  · rintro cause t₁ ⟨i, rfl⟩
    trivial

end Tableau

end Cassowary
