import Cassowary.Proofs.Basis

/-!
# What a change of a tableau leaves alone

Let some keys be near and the others far, so that no row mixes them: the row of a near key is in
terms of near keys, and that of a far one in terms of far ones. A change that starts from near keys
stays near them. To replace a near key by a row of near keys does not touch the row of a far key,
which does not have it; and the keys that a method picks are near, since they stand in a row with a
near key, wait in the queue, or would improve an objective that no far key improves.

So the rows of far keys are the same after an operation as before it.

## Main definitions

* `Row.Within` — a row of keys with a property
* `Tableau.Composes` — solutions may be put together, near from one and far from another
* `Tableau.Confined` — a tableau that has changed near some keys only

## Main results

* `Tableau.Represents.unmixed` — where solutions compose, no row mixes near keys and far ones
* `Tableau.Confined.enter`, `Tableau.Confined.pivot` — changes of the basis
* `Tableau.upholds_solve_confined` — the methods
* `Tableau.ensures_addConstraint_confined`, `Tableau.ensures_removeConstraint_confined`,
  `Tableau.ensures_suggest_confined` — operations on a tableau
-/

namespace Cassowary

open Attempt

namespace Row

variable {α : Type} [Scalar α] {row other : Row α} {P : Key → Prop} {basic : Key}

omit [Scalar α] in
/-- All keys of a row have a property. -/
def Within (row : Row α) (P : Key → Prop) : Prop := ∀ k, row.contains k = true → P k

namespace Within

theorem insertAll (h : row.Within P) {ts : List (Term Key α)} (hts : ∀ t ∈ ts, P t.var) :
    (row.insertAll ts).Within P := by
  intro k hk
  rcases contains_of_contains_insertAll hk with hmem | hk
  · obtain ⟨t, ht, rfl⟩ := List.mem_map.mp hmem
    exact hts t ht
  · exact h k hk

theorem substitute (h : row.Within P) (hother : other.Within P) (t : Term Key α) :
    (row.substitute t other).Within P := fun k hk =>
  (contains_of_contains_substitute hk).elim (hother k) (h k)

theorem solveFor (h : row.Within P) (k : Key) : (row.solveFor k).Within P := fun _ hk =>
  h _ (contains_of_contains_solveFor hk)

theorem solveForPair (h : row.Within P) (hbasic : P basic) (k : Key) :
    (row.solveForPair basic k).Within P := fun _ hk =>
  (contains_of_contains_solveForPair hk).elim (fun heq => heq ▸ hbasic) (h _)

theorem normalize (h : row.Within P) : row.normalize.Within P := fun k hk => h k (by
  rwa [contains_iff_mem_keys, keys_normalize, ← contains_iff_mem_keys] at hk)

end Within

/-- A constraint that mentions keys with a property makes a row of such keys. -/
theorem within_ofConstraint {c : Constraint α} (hc : ∀ k ∈ c.keys, P k) :
    (ofConstraint c).Within P :=
  Within.insertAll (fun _ hk => by cases hk) fun t ht => hc _ (List.mem_map.mpr ⟨t, ht, rfl⟩)

end Row

namespace Tableau

variable {near : Key → Prop} {t₀ t t' : Tableau Rat} {row : Row Rat} {k k' entering leaving : Key}
  {target : Target} {c : Constraint Rat} {w : Strength Rat} {handle : Handle}
  {S : Assignment Rat → Prop} {cost : Assignment Rat → Rat} {v : Assignment Rat}

/-- Compared with a tableau before, the rows of far keys are the same. No row mixes near and far
keys, and far ones would not improve the objective. Whatever else is under way is near. -/
structure Confined (near : Key → Prop) (t₀ t : Tableau Rat) : Prop where
  far : ∀ k, ¬ near k → t.rows.get? k = t₀.rows.get? k
  unmixed : ∀ {k row k'}, t.rows.get? k = some row → row.contains k' = true → (near k' ↔ near k)
  objective : ∀ k, ¬ near k → k.pivotable = true → 0 ≤ t.objective.coefficientFor k
  artificial : ∀ row, t.artificial = some row → row.Within near
  queue : ∀ k ∈ t.infeasible, near k
  epsilon : t.epsilon = 0
  given : t₀.nextId ≤ t.nextId

/-- Values near and values far make a solution together. -/
def Composes (near : Key → Prop) (S : Assignment Rat → Prop) : Prop :=
  ∀ v w u, S v → S w → (∀ k, near k → u k = v k) → (∀ k, ¬ near k → u k = w k) → S u

/-- The value of a row where, of what is not basic, one variable at most is other than zero. -/
theorem Represents.eq_of_single (h : t.Represents S cost) (hrow : t.rows.get? k = some row)
    (hv : S v) (hzero : ∀ k₁, t.isBasic k₁ = false → k₁ ≠ k' → v k₁ = 0) :
    v k = row.constant + row.coefficientFor k' * v k' := by
  have hsame : row.evaluate v = row.evaluate (Function.update (fun _ => 0) k' (v k')) := by
    refine Row.evaluate_congr fun k₁ hk₁ => ?_
    by_cases heq : k₁ = k'
    · rw [heq, Function.update_self]
    · rw [Function.update_of_ne heq, hzero k₁ (h.isBasic_entering hrow hk₁) heq]
  rw [← h.evaluate_row hrow hv, hsame, Row.evaluate_update, Row.evaluate_zero, sub_zero]

/-- If solutions can be put together, no row mixes near and far keys. -/
theorem Represents.unmixed (h : t.Represents S cost) (hS : Composes near S)
    (hrow : t.rows.get? k = some row) (hk' : row.contains k' = true) : near k' ↔ near k := by
  classical
  have hne : row.coefficientFor k' ≠ 0 := (h.proper_row hrow).contains_iff.mp hk'
  have hbasic : t.isBasic k' = false := h.isBasic_entering hrow hne
  let low : Assignment Rat := t.complete fun _ => 0
  let high : Assignment Rat := t.complete (Function.update (fun _ => 0) k' 1)
  let mixed : Assignment Rat := fun k => if near k then high k else low k
  have hlow : ∀ k₁, t.isBasic k₁ = false → low k₁ = 0 := fun k₁ hk₁ =>
    complete_of_isBasic_eq_false hk₁ _
  have hhigh : ∀ k₁, t.isBasic k₁ = false → k₁ ≠ k' → high k₁ = 0 := fun k₁ hk₁ hk₁' =>
    (complete_of_isBasic_eq_false hk₁ _).trans (Function.update_of_ne hk₁' _ _)
  have hraised : high k' = 1 :=
    (complete_of_isBasic_eq_false hbasic _).trans (Function.update_self _ _ _)
  have hlow_row : low k = row.constant :=
    (complete_of_get? hrow _).trans (Row.evaluate_zero row)
  have hhigh_row : high k = row.constant + row.coefficientFor k' := by
    have hrow := h.eq_of_single hrow (h.solves_complete _) hhigh
    rwa [show t.complete _ k' = 1 from hraised, mul_one] at hrow
  have hmixed_row : mixed k = row.constant + row.coefficientFor k' * mixed k' := by
    refine h.eq_of_single hrow ?_ fun k₁ hk₁ hk₁' => ?_
    · exact hS high low mixed (h.solves_complete _) (h.solves_complete _)
        (fun _ hk => if_pos hk) fun _ hk => if_neg hk
    · dsimp only [mixed]
      rw [hlow k₁ hk₁, hhigh k₁ hk₁ hk₁', ite_self]
  -- In what they make together, `k` is raised if and only if `k'` is
  dsimp only [mixed] at hmixed_row
  rw [hraised, hlow k' hbasic, hhigh_row, hlow_row] at hmixed_row
  by_cases hnear' : near k' <;> by_cases hnear : near k
  · exact iff_of_true hnear' hnear
  · rw [if_pos hnear', if_neg hnear, mul_one] at hmixed_row
    exact absurd (left_eq_add.mp hmixed_row) hne
  · rw [if_neg hnear', if_pos hnear, mul_zero] at hmixed_row
    exact absurd (add_left_cancel hmixed_row) hne
  · exact iff_of_false hnear' hnear

/-- What is far is not near. -/
theorem ne_of_far (hk' : ¬ near k') (hk : near k) : k' ≠ k := by
  rintro rfl
  exact hk' hk

namespace Confined

theorem within (h : Confined near t₀ t) (hrow : t.rows.get? k = some row) (hk : near k) :
    row.Within near := fun _ hk' => (h.unmixed hrow hk').mpr hk

/-- The row of a far key does not have a near one. -/
theorem not_contains (h : Confined near t₀ t) (hrow : t.rows.get? k = some row) (hk : ¬ near k)
    (hk' : near k') : row.contains k' = false :=
  Bool.eq_false_iff.mpr fun hcontains => hk ((h.unmixed hrow hcontains).mp hk')

/-! ### Changes -/

theorem of_eq (h : Confined near t₀ t) (hrows : t'.rows = t.rows)
    (hobjective : t'.objective = t.objective)
    (hartificial : t'.artificial = t.artificial ∨ t'.artificial = none)
    (hqueue : ∀ k ∈ t'.infeasible, k ∈ t.infeasible) (hepsilon : t'.epsilon = t.epsilon)
    (hid : t.nextId ≤ t'.nextId) : Confined near t₀ t' where
  far k hk := by rw [hrows, h.far k hk]
  unmixed hrow := h.unmixed (hrows ▸ hrow)
  objective := by rw [hobjective]; exact h.objective
  artificial row hrow := by
    rcases hartificial with heq | heq
    · exact h.artificial row (heq ▸ hrow)
    · cases heq.symm.trans hrow
  queue k hk := h.queue k (hqueue k hk)
  epsilon := hepsilon.trans h.epsilon
  given := h.given.trans hid

/-- A tableau stays confined when its objective changes at near keys only. -/
theorem of_objective (h : Confined near t₀ t) (hrows : t'.rows = t.rows)
    (hobjective : ∀ k, ¬ near k → t'.objective.coefficientFor k = t.objective.coefficientFor k)
    (hartificial : t'.artificial = t.artificial) (hqueue : t'.infeasible = t.infeasible)
    (hepsilon : t'.epsilon = t.epsilon) (hid : t.nextId ≤ t'.nextId) : Confined near t₀ t' where
  far k hk := by rw [hrows, h.far k hk]
  unmixed hrow := h.unmixed (hrows ▸ hrow)
  objective k hk hpivotable := (h.objective k hk hpivotable).trans (hobjective k hk).ge
  artificial := by rw [hartificial]; exact h.artificial
  queue := by rw [hqueue]; exact h.queue
  epsilon := hepsilon.trans h.epsilon
  given := h.given.trans hid

theorem eraseRow (h : Confined near t₀ t) (hk : near k) : Confined near t₀ (t.eraseRow k) where
  far k' hk' := by
    rw [get?_eraseRow, if_neg (ne_of_far hk' hk), h.far k' hk']
  unmixed hrow := h.unmixed (get?_of_eraseRow hrow).2
  objective := by
    rw [Option.some_inj.mp (targetRow_eraseRow t k .objective)]
    exact h.objective
  artificial row hrow := h.artificial row ((targetRow_eraseRow t k .artificial).symm.trans hrow)
  queue := by rw [infeasible_eraseRow]; exact h.queue
  epsilon := (epsilon_eraseRow t k).trans h.epsilon
  given := h.given.trans (nextId_eraseRow t k).ge

/-- To make a near key basic with a row of near keys touches no far row. -/
theorem enter (h : Confined near t₀ t) (hk : near k) (hrow : row.Within near) :
    Confined near t₀ (t.enter k row) where
  far k' hk' := by
    rw [get?_enter, if_neg (ne_of_far hk' hk), ← h.far k' hk']
    cases hold : t.rows.get? k' with
    | none => rfl
    | some old => exact congrArg some (Row.substitute_of_not_contains (h.not_contains hold hk' hk))
  unmixed {k₁ new k₂} hnew hk₂ := by
    rcases get?_enter_cases hnew with ⟨rfl, rfl⟩ | ⟨old, hold, rfl⟩
    · exact iff_of_true (hrow k₂ hk₂) hk
    · cases hcontains : old.contains k with
      | false =>
        rw [Row.substitute_of_not_contains (t := .unit k) hcontains] at hk₂
        exact h.unmixed hold hk₂
      | true =>
        have hk₁ : near k₁ := (h.unmixed hold hcontains).mp hk
        exact iff_of_true ((h.within hold hk₁).substitute hrow _ k₂ hk₂) hk₁
  objective k' hk' hpivotable := by
    have hobjective : (t.enter k row).objective = t.objective.substitute (.unit k) row :=
      Option.some_inj.mp (targetRow_enter t k row .objective)
    have hfar : row.contains k' = false := Bool.eq_false_iff.mpr fun hcontains =>
      hk' (hrow k' hcontains)
    rw [hobjective, Row.coefficientFor_substitute_of_ne (t := .unit k) (ne_of_far hk' hk) hfar]
    exact h.objective k' hk' hpivotable
  artificial new hnew := by
    obtain ⟨old, hold, rfl⟩ :=
      Option.map_eq_some_iff.mp ((targetRow_enter t k row .artificial).symm.trans hnew)
    exact (h.artificial old hold).substitute hrow _
  queue k' hk' := by
    rcases mem_infeasible_enter hk' with rfl | ⟨old, hold, hcontains⟩ | hk'
    · exact hk
    · exact (h.unmixed hold hcontains).mp hk
    · exact h.queue k' hk'
  epsilon := (epsilon_enter t k row).trans h.epsilon
  given := h.given.trans (nextId_enter t k row).ge

theorem pivot (h : Confined near t₀ t) (hentering : near entering) (hleaving : near leaving) :
    Confined near t₀ (t.pivot entering leaving) := by
  cases hrow : t.rows.get? leaving with
  | none => rwa [pivot_of_get?_eq_none hrow]
  | some row =>
    have hentered := (h.eraseRow hleaving).enter hentering
      ((h.within hrow hleaving).solveForPair hleaving entering)
    rw [pivot_eq hrow]
    exact hentered.of_eq rfl rfl (.inl rfl) (fun _ => id) rfl le_rfl

theorem replace (h : Confined near t₀ t) (hrow : t.rows.get? leaving = some row)
    (hentering : near entering) (hleaving : near leaving) :
    Confined near t₀ (t.replace leaving entering row) := by
  have hpivot := h.pivot hentering hleaving
  obtain ⟨queue, pivots, heq, hsub⟩ := pivot_eq_replace hrow entering
  rw [heq] at hpivot
  exact hpivot.of_eq rfl rfl (.inl rfl) hsub rfl le_rfl

theorem install (h : Confined near t₀ t) (hrow : row.Within near) (hk : near k) :
    Confined near t₀ (t.install row k) :=
  h.enter hk (hrow.solveFor k)

theorem behind (h : Confined near t₀ t) (hk : near k) (hrow : row.Within near) :
    Confined near t₀ (t.behind k row) where
  far k' hk' := (get?_putRow t k row k').trans ((if_neg (ne_of_far hk' hk)).trans (h.far k' hk'))
  unmixed {k₁ new k₂} hnew hk₂ := by
    rcases get?_behind_cases hnew with ⟨rfl, rfl⟩ | hold
    · exact iff_of_true (hrow k₂ hk₂) hk
    · exact h.unmixed hold hk₂
  objective := h.objective
  artificial := by
    rintro _ ⟨⟩
    exact hrow
  queue := h.queue
  epsilon := h.epsilon
  given := h.given

theorem dropColumn (h : Confined near t₀ t) (hk : near k) :
    Confined near t₀ (t.dropColumn k) where
  far k' hk' := by
    rw [get?_dropColumn, ← h.far k' hk']
    cases hold : t.rows.get? k' with
    | none => rfl
    | some old => exact congrArg some (Row.remove_of_not_contains (h.not_contains hold hk' hk))
  unmixed hnew hk₂ := by
    obtain ⟨old, hold, rfl⟩ := get?_dropColumn_eq_some hnew
    rw [Row.contains_remove, Bool.and_eq_true] at hk₂
    exact h.unmixed hold hk₂.2
  objective k' hk' hpivotable := by
    rw [objective_dropColumn, Row.coefficientFor_remove, if_neg (ne_of_far hk' hk)]
    exact h.objective k' hk' hpivotable
  artificial := by rw [artificial_dropColumn]; exact h.artificial
  queue := by rw [infeasible_dropColumn]; exact h.queue
  epsilon := (epsilon_dropColumn t k).trans h.epsilon
  given := h.given.trans (nextId_dropColumn t k).ge

theorem dropPrice (h : Confined near t₀ t) (hk : near k) (w : Strength Rat) :
    Confined near t₀ (t.dropPrice k w) := by
  unfold Tableau.dropPrice
  dsimp only
  split
  · next row hrow =>
    refine h.of_objective rfl (fun k' hk' => ?_) rfl rfl rfl le_rfl
    exact Row.coefficientFor_insertRow_of_not_contains
      (Bool.eq_false_iff.mpr fun hcontains => hk' (h.within hrow hk k' hcontains)) _
  · refine h.of_objective rfl (fun k' hk' => ?_) rfl rfl rfl le_rfl
    exact Row.coefficientFor_insert_of_ne _ (ne_of_far hk' hk)

/-- Moving constants of near rows keeps a tableau confined. -/
theorem shift (h : Confined near t₀ t) {change : Key → Row Rat → Option Rat}
    (hchange : ∀ k row, ¬ near k → t.rows.get? k = some row → change k row = none) :
    Confined near t₀ (t.shift change) where
  far k hk := by
    refine (get?_revise t _ k).trans (Eq.trans ?_ (h.far k hk))
    cases hold : t.rows.get? k with
    | none => rfl
    | some old =>
      rw [Option.map_some, hchange k old hk hold]
      rfl
  unmixed hnew hk' := by
    obtain ⟨old, hold, rfl⟩ := get?_shift hnew
    exact h.unmixed hold hk'
  objective := h.objective
  artificial := h.artificial
  queue k hk := by
    rcases mem_infeasible_reviseAndQueue.mp hk with hviolated | hk
    · obtain ⟨old, new, hold, hmoved, -⟩ := mem_violations.mp hviolated
      by_contra hfar
      rw [hchange k old hfar hold] at hmoved
      cases hmoved
    · exact h.queue k hk
  epsilon := h.epsilon
  given := h.given

theorem rest (h : Confined near t₀ t) {queue : List Key}
    (hnext : t.nextViolated t.infeasible = some (k, row, queue)) :
    Confined near t₀ { t with infeasible := queue } :=
  h.of_eq rfl rfl (.inl rfl) (fun _ hk => subset_of_nextViolated hnext hk) rfl le_rfl

/-- In terms of the tableau, a row of near keys stays one. -/
theorem substituteBasics (h : Confined near t₀ t) (hrow : row.Within near) :
    (t.substituteBasics row).Within near := by
  have hfold : ∀ (l : List (Key × Row Rat)) (row : Row Rat), (∀ e ∈ l, e.2.Within near) →
      row.Within near → (l.foldl (fun row e => row.substitute (.unit e.1) e.2) row).Within near := by
    intro l
    induction l with
    | nil => exact fun _ _ => id
    | cons e rest ih =>
      intro row hl hrow
      exact ih _ (fun e he => hl e (List.mem_cons_of_mem _ he))
        (hrow.substitute (hl e List.mem_cons_self) _)
  refine hfold _ row (fun e he => ?_) hrow
  obtain ⟨k, hk, he⟩ := List.mem_filterMap.mp he
  obtain ⟨old, hold, rfl⟩ := Option.map_eq_some_iff.mp he
  exact h.within hold (hrow k (Row.contains_iff_mem_keys.mpr hk))

end Confined

/-! ## Solving -/

/-- The primal rule picks near keys: no far one would improve the objective, and the artificial one
has none. -/
theorem Confined.near_of_primalRule (h : Confined near t₀ t)
    (hrule : primalRule target t = (.pivot entering leaving, t')) :
    near entering ∧ near leaving := by
  obtain ⟨-, goal, hgoal, hentering, hleaving⟩ := primalRule_pivot hrule
  obtain ⟨row, hrow, -, hneg⟩ := leaving?_eq_some hleaving
  have hnear : near entering := by
    cases target with
    | objective =>
      cases hgoal
      obtain ⟨hpivotable, himproves⟩ := entering?_eq_some_rat hentering
      by_contra hfar
      apply himproves
      rw [h.epsilon, neg_zero]
      exact h.objective entering hfar hpivotable
    | artificial =>
      obtain ⟨term, hterm, rfl, -⟩ := entering?_eq_some hentering
      exact h.artificial goal hgoal _ (Row.contains_iff_mem_keys.mpr (Row.var_mem_keys hterm))
  exact ⟨hnear, (h.unmixed hrow (Row.contains_of_coefficientFor_ne_zero hneg.ne)).mp hnear⟩

/-- In a confined tableau, the dual rule pivots on near keys, since it starts from the queue. -/
theorem Confined.near_of_dualRule (h : Confined near t₀ t)
    (hrule : dualRule t = (.pivot entering leaving, t')) : near entering ∧ near leaving := by
  obtain ⟨row, rest, -, hnext, hentering⟩ := dualRule_pivot hrule
  obtain ⟨hrow, -⟩ := nextViolated_eq_some hnext
  obtain ⟨x, hterm, -⟩ := dualEntering?_eq_some hentering
  have hleaving : near leaving := h.queue leaving (mem_of_nextViolated hnext)
  exact ⟨h.within hrow hleaving _ (Row.contains_iff_mem_keys.mpr (Row.var_mem_keys hterm)), hleaving⟩

theorem upholds_optimize_confined (target : Target) :
    Upholds (optimize target) (Confined near t₀) := fun t ht =>
  ensures_iterate (fun h hrule => (primalRule_finished hrule).1 ▸ h) (fun _ _ => trivial)
    (fun h hrule => by
      obtain ⟨hentering, hleaving⟩ := h.near_of_primalRule hrule
      obtain ⟨rfl, -⟩ := primalRule_pivot hrule
      exact h.pivot hentering hleaving)
    (fun _ _ => trivial) _ ht

theorem upholds_dualOptimize_confined : Upholds dualOptimize (Confined near t₀) := fun t ht =>
  ensures_iterate
    (fun h hrule => by
      obtain ⟨rfl, -⟩ := dualRule_finished hrule
      exact h.of_eq rfl rfl (.inl rfl) (fun _ hk => absurd hk List.not_mem_nil) rfl le_rfl)
    (fun _ _ => trivial)
    (fun h hrule => by
      obtain ⟨hentering, hleaving⟩ := h.near_of_dualRule hrule
      obtain ⟨row, rest, rfl, hnext, -⟩ := dualRule_pivot hrule
      exact (h.rest hnext).pivot hentering hleaving)
    (fun _ _ => trivial) _ ht

theorem upholds_solve_confined : Upholds solve (Confined near t₀) :=
  (upholds_optimize_confined _).bind fun _ => upholds_dualOptimize_confined.bind fun _ _ h =>
    h.of_eq rfl rfl (.inl rfl) (fun _ => id) rfl le_rfl

theorem upholds_finish_confined (defer : Bool) : Upholds (finish defer) (Confined near t₀) :=
  fun t h =>
    ensures_finish_of (fun _ _ => h.of_eq rfl rfl (.inl rfl) (fun _ => id) rfl le_rfl) fun _ =>
      upholds_solve_confined t h

/-! ## Insertion -/

section Insertion

variable (hfresh : ∀ k : Key, k.internal = true → t₀.nextId ≤ k.index.toNat → near k)
include hfresh

/-- The symbols of a constraint are new, and its other keys are near. -/
theorem ensures_createRow_confined (h : Confined near t₀ t) (hc : ∀ k ∈ c.keys, near k) :
    Ensures (createRow c w) t
      (fun r t' => Confined near t₀ t' ∧ r.1.Within near ∧ ∀ k ∈ r.2.markers, near k)
      fun _ _ => True := by
  refine ensures_createRow_of ((ensures_addMarkers _ _ w t).imp ?_ fun _ _ _ => trivial)
  rintro ⟨row, handle⟩ t' ⟨hrow, -, hnew, hlt, journal, ht'⟩
  dsimp only at hrow hnew hlt ht' ⊢
  have hmarkers : ∀ k ∈ handle.markers, near k := fun k hk =>
    hfresh k (hnew.internal k hk) (h.given.trans (hnew.le k hk))
  have hid : t.nextId ≤ t'.nextId :=
    (hnew.le _ List.mem_cons_self).trans (hlt _ List.mem_cons_self).le
  have h' : Confined near t₀ t' := by
    refine h.of_objective (by rw [ht']) (fun k hk => ?_) (by rw [ht']) (by rw [ht']) (by rw [ht']) hid
    rw [ht']
    refine Row.coefficientFor_insertAll_of_notMem fun hmem => ?_
    obtain ⟨p, hp, rfl⟩ := List.mem_map.mp hmem
    exact hk (hmarkers _ (Handle.mem_prices hp).1)
  refine ⟨h', (h'.substituteBasics ?_).normalize, hmarkers⟩
  rw [hrow]
  exact (Row.within_ofConstraint hc).insertAll fun p hp => hmarkers _ (Handle.var_mem_markers hp)

omit hfresh in
theorem ensures_prepareFor_confined (h : Confined near t₀ t) (hrow : row.Within near)
    (handle : Handle) :
    Ensures (prepareFor row handle) t (fun row' t' => Confined near t₀ t' ∧ row'.Within near)
      fun _ _ => True :=
  ensures_prepareFor_of (fun _ => ⟨h, hrow⟩) fun _ _ => (upholds_solve_confined t h).imp
    (fun _ _ h' => ⟨h', (h'.substituteBasics hrow).normalize⟩) fun _ _ _ => trivial

theorem ensures_addWithArtificial_confined (h : Confined near t₀ t) (hrow : row.Within near) :
    Ensures (addWithArtificial row) t (fun _ t' => Confined near t₀ t') fun _ _ => True := by
  unfold addWithArtificial
  rw [ensures_bind]
  refine (ensures_newSymbol .artificial t).imp ?_ fun _ _ _ => trivial
  rintro a _ ⟨⟨hkind, hindex⟩, rfl⟩
  have ha : near a := hfresh a (by rw [Key.internal, hkind]; rfl) (h.given.trans hindex.ge)
  have h₁ : Confined near t₀ ({ t with nextId := t.nextId + 1 } : Tableau Rat) :=
    h.of_eq rfl rfl (.inl rfl) (fun _ => id) rfl (Nat.le_succ _)
  rw [ensures_bind, ensures_modify, ensures_bind]
  have hminimize : Upholds minimizeArtificial (Confined near t₀) := by
    intro t ht
    rw [ensures_minimizeArtificial_iff]
    exact (upholds_optimize_confined .artificial t ht).imp
      (fun _ _ h => h.of_eq rfl rfl (.inr rfl) (fun _ => id) rfl le_rfl) fun _ _ _ => trivial
  refine (hminimize _ (h₁.behind ha hrow)).imp (fun _ t₂ h₂ => ?_) fun _ _ _ => trivial
  rw [ensures_bind, ensures_get]
  split
  · trivial
  · have hretire : Upholds (retireArtificial a) (Confined near t₀) := by
      intro t h
      refine ensures_retireArtificial_of (fun _ => h) (fun _ _ _ => h.eraseRow ha)
        (fun _ _ _ => trivial) fun row entering hrow hentering => ?_
      have hcontains : row.contains entering = true :=
        Row.contains_iff_mem_keys.mpr (List.mem_of_find?_eq_some hentering)
      exact h.replace hrow ((h.within hrow ha) entering hcontains) ha
    exact (hretire.bind fun _ => (keeps_modify fun t h => h.dropColumn ha).upholds) t₂ h₂

theorem ensures_insertRow_confined (h : Confined near t₀ t) (hrow : row.Within near)
    (hmarkers : ∀ k ∈ handle.markers, near k) :
    Ensures (insertRow row handle) t (fun _ t' => Confined near t₀ t') fun _ _ => True := by
  refine ensures_insertRow_of (ensures_prepareFor_confined h hrow handle) ?_
    (fun _ _ _ _ _ _ => trivial)
    (fun _ _ h _ _ _ => h.1.install h.2 (hmarkers _ List.mem_cons_self))
    fun _ _ h _ _ => ensures_addWithArtificial_confined hfresh h.1 h.2
  rintro row t subject ⟨h, hrow⟩ hsubject
  exact h.install hrow ((Row.key_of_subject? hsubject).elim (hrow _) (hmarkers _))

/-- An insertion stays near the keys of its constraint. -/
theorem ensures_addConstraint_confined (h : Confined near t₀ t) (hc : ∀ k ∈ c.keys, near k)
    (defer : Bool) :
    Ensures (addConstraint c w defer) t (fun _ t' => Confined near t₀ t') fun _ _ => True := by
  unfold addConstraint
  rw [ensures_bind]
  refine (ensures_createRow_confined hfresh h hc).imp ?_ fun _ _ => id
  rintro ⟨row, handle⟩ t₁ ⟨h₁, hrow, hmarkers⟩
  rw [ensures_bind]
  refine (ensures_insertRow_confined hfresh h₁ hrow hmarkers).imp (fun _ t₂ h₂ => ?_) fun _ _ => id
  exact ensures_bind _ |>.mpr (upholds_finish_confined defer t₂ h₂)

end Insertion

/-! ## Removal and targets -/

theorem Confined.dropPrices (h : Confined near t₀ t) (w : Strength Rat) {errors : List Key}
    (herrors : ∀ k ∈ errors, near k) :
    Confined near t₀ (errors.foldl (·.dropPrice · w) t) := by
  induction errors generalizing t with
  | nil => exact h
  | cons k rest ih =>
    exact ih (h.dropPrice (herrors k List.mem_cons_self) w) fun k hk =>
      herrors k (List.mem_cons_of_mem _ hk)

/-- A removal stays near the symbols of its constraint. -/
theorem ensures_removeConstraint_confined (h : Confined near t₀ t)
    (hmarkers : ∀ k ∈ handle.markers, near k) (w : Strength Rat) (defer : Bool) :
    Ensures (removeConstraint handle w defer) t (fun _ t' => Confined near t₀ t')
      fun _ _ => True := by
  have hmarker : near handle.marker := hmarkers _ List.mem_cons_self
  have hdropped : ∀ {t : Tableau Rat}, Confined near t₀ t →
      Confined near t₀ (t.dropMarker handle.marker) := by
    intro t h
    unfold dropMarker
    split
    · exact h.eraseRow hmarker
    · split
      · next leaving hleaving =>
        obtain ⟨row, hrow, hne, -⟩ := markerLeaving?_eq_some hleaving
        have hnear : near leaving :=
          (h.unmixed hrow (Row.contains_of_coefficientFor_ne_zero hne)).mp hmarker
        exact (h.pivot hmarker hnear).eraseRow hmarker
      · exact h
  exact ensures_removeConstraint_of (upholds_finish_confined defer _
    (hdropped (h.dropPrices w fun k hk => hmarkers k (List.mem_filter.mp hk).1)))

/-- The rows of far keys do not move with a target whose errors are near. -/
theorem Confined.targetShift_eq_none (h : Confined near t₀ t) {plus minus : Key} (hplus : near plus)
    (hminus : near minus) (delta : Rat) (hk : ¬ near k) (hrow : t.rows.get? k = some row) :
    t.targetShift plus minus delta k row = none := by
  have hzero : row.coefficientFor plus = 0 :=
    Row.coefficientFor_of_not_contains (h.not_contains hrow hk hplus)
  unfold targetShift
  rw [if_neg (ne_of_far hk hplus), if_neg (ne_of_far hk hminus)]
  simp only [hzero, beq_self_eq_true, if_true, ite_self]

/-- A move of a target stays near its errors. -/
theorem ensures_suggest_confined (h : Confined near t₀ t) (hmarkers : ∀ k ∈ handle.markers, near k)
    (delta : Rat) :
    Ensures (suggest handle delta) t (fun _ t' => Confined near t₀ t') fun _ _ => True :=
  ensures_suggest_of (fun _ => h) (fun _ => upholds_solve_confined t h) (fun _ h _ => h)
    fun _ _ h hother => upholds_dualOptimize_confined _ (h.shift fun _ _ hk hrow =>
      h.targetShift_eq_none (hmarkers _ List.mem_cons_self)
        (hmarkers _ (Handle.mem_markers.mpr (.inr hother))) delta hk hrow)

end Tableau

end Cassowary
