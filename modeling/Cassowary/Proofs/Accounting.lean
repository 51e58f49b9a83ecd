import Cassowary.Proofs.Dummies
import Cassowary.Proofs.Optimality

/-!
# The objective and the cost

The objective of a tableau is the cost of its constraints in other terms. What insertions, removals
and pivots do to it keeps its value at every solution: prices come in and go out, and one variable
is put in for another. A target is moved in the constants of the rows alone. The solutions move with
it, and their cost changes by the strength of the constraint; the objective changes by whatever
coefficient the first error happens to have there. From then on it lags behind the cost by the
difference, until the solver is cleared or goes back to a state before the move.

No method looks at the constant of the objective, so what is found is optimal all the same.

## Main definitions

* `Tableau.Lags` — how far the objective is behind a cost
* `Solver.shortfall` — what a moved target adds to that
* `Account`, `Solver.account` — how far the objective is behind after a run

## Main results

* `Tableau.Represents.lags_of_evaluate` — one solution tells how far
* `Tableau.ensures_addConstraint_lags`, `Tableau.Lags.ensures_removeConstraint`,
  `Tableau.Lags.ensures_suggest` — what the operations do about it
* `State.Sound.charge_basicSolution` — what is found costs what its violations cost
* `Solver.tallies_step`, `Solver.run_tallied` — one operation, and whole runs
-/

namespace Cassowary

open Attempt

namespace Tableau

variable {t t' : Tableau Rat} {S S' : Assignment Rat → Prop} {cost cost' f : Assignment Rat → Rat}
  {row : Row Rat} {k a minus entering leaving : Key} {handle : Handle} {c : Constraint Rat}
  {w : Strength Rat} {v : Assignment Rat} {lag delta : Rat}

/-! ## Lags -/

/-- At every solution of the rows, the objective is less than a cost by the same amount. -/
def Lags (t : Tableau Rat) (cost : Assignment Rat → Rat) (lag : Rat) : Prop :=
  ∀ v, t.Solves v → t.objective.evaluate v + lag = cost v

theorem Lags.of_eq (h : t.Lags cost lag) (hrows : t'.rows = t.rows)
    (hobjective : t'.objective = t.objective) : t'.Lags cost lag := by
  unfold Lags Solves at h ⊢
  rwa [hrows, hobjective]

/-- A tableau that represents a cost is behind it by some amount, which any solution tells. -/
theorem Represents.lags_of_evaluate (h : t.Represents S cost) (hv : S v)
    (hvalue : t.objective.evaluate v + lag = cost v) : t.Lags cost lag := by
  intro v' hv'
  obtain ⟨offset, hoffset⟩ := h.exists_offset
  have hsame := hoffset v hv
  have hother := hoffset v' ((h.solves_iff v').mp hv')
  linarith

/-! ## The methods -/

theorem Represents.evaluate_objective_pivot (h : t.Represents S cost)
    (hrow : t.rows.get? leaving = some row) (hentering : row.coefficientFor entering ≠ 0)
    (hv : S v) : (t.pivot entering leaving).objective.evaluate v = t.objective.evaluate v := by
  obtain ⟨objective, hobjective, hvalue⟩ := h.evaluate_target_pivot hrow hentering
    (show t.targetRow .objective = some t.objective from rfl)
  cases hobjective
  exact hvalue v hv

/-- Pivots keep the value of the objective at every solution. -/
theorem enduring_lags : Enduring fun t => t.Canonical S cost ∧ t.Lags cost lag where
  of_eq h hrows hobjective hartificial hid hqueue :=
    ⟨h.1.of_eq hrows hobjective hartificial hid hqueue, h.2.of_eq hrows hobjective⟩
  queue h := h.1.queue
  pivot {t row entering leaving} h hrow hcoefficient _ hleaving := by
    have hpivot := h.1.pivot hrow hcoefficient hleaving
    refine ⟨hpivot, fun v hv => ?_⟩
    have hS := (hpivot.represents.solves_iff v).mp hv
    rw [h.1.represents.evaluate_objective_pivot hrow hcoefficient hS,
      h.2 v ((h.1.represents.solves_iff v).mpr hS)]

/-! ## Insertions -/

/-- The prices of the symbols of a constraint are a part of the objective as of the cost. -/
theorem Lags.ensures_createRow (h : t.Lags cost lag) (hproper : t.objective.Proper)
    (c : Constraint Rat) (w : Strength Rat) :
    Ensures (createRow c w) t (fun r t' => t'.Lags (fun v => cost v + r.2.price w v) lag)
      fun _ _ => True := by
  refine ensures_bind _ |>.mpr ((ensures_addMarkers _ _ w t).imp ?_ fun _ _ _ => trivial)
  rintro ⟨row, handle⟩ t' ⟨-, -, -, -, journal, ht'⟩
  rw [ensures_bind, ensures_get, ensures_pure]
  intro v hv
  have hsolves : t.Solves v := by rwa [ht'] at hv
  have hobjective : t'.objective = t.objective.insertAll (handle.prices w) := by rw [ht']
  dsimp only
  rw [hobjective, Row.evaluate_insertAll hproper, Handle.price, ← h v hsolves]
  ring

/-- A row that enters keeps the value of the objective wherever its key is what it says. -/
theorem evaluate_objective_install (hproper : t.objective.Proper) (hk : row.coefficientFor k ≠ 0)
    (hv : row.evaluate v = 0) :
    (t.install row k).objective.evaluate v = t.objective.evaluate v := by
  have hobjective : (t.install row k).objective =
      t.objective.substitute (.unit k) (row.solveFor k) :=
    Option.some_inj.mp (targetRow_enter t k _ .objective)
  rw [hobjective, Row.evaluate_substitute hproper, Row.evaluate_solveFor hk, hv, zero_div, sub_zero,
    sub_self, mul_zero, add_zero]

/-- The objective keeps its value at every solution when an artificial variable leaves the basis. -/
theorem Represents.ensures_retireArtificial_objective (h : t.Represents S cost) :
    Ensures (retireArtificial a) t
      (fun _ t' => ∀ v, S v → t'.objective.evaluate v = t.objective.evaluate v)
      fun _ _ => True := by
  have herased : (t.eraseRow a).objective = t.objective :=
    Option.some_inj.mp (targetRow_eraseRow t a .objective)
  refine ensures_retireArtificial_of (fun _ _ _ => rfl) (fun _ _ _ _ _ => by rw [herased])
    (fun _ _ _ => trivial) fun row entering hrow hentering v hv => ?_
  have hcoefficient := (h.proper_row hrow).contains_iff.mp (Row.anyPivotable_eq_some hentering).2
  have hvalue := h.evaluate_objective_pivot hrow hcoefficient hv
  obtain ⟨queue, pivots, heq, -⟩ := pivot_eq_replace hrow entering
  rwa [heq] at hvalue

/-- An equation that enters behind an artificial variable leaves the objective as far behind the
cost as it was, at the solutions that meet the equation. -/
theorem ensures_addWithArtificial_lags (h : t.Canonical S cost) (hlags : t.Lags cost lag)
    (hplain : ∀ k : Key, k.Rowless → Ignores S k ∧ CostIgnores cost k) (hrow : row.Over t)
    (hproper : row.Proper) (hfree : ∀ k, k.unrestricted = true → row.coefficientFor k = 0) :
    Ensures (addWithArtificial row) t
      (fun _ t' => ∀ v, S v → row.evaluate v = 0 → t'.objective.evaluate v + lag = cost v)
      fun _ _ => True := by
  have hbehind : ∀ a : Key, a.kind = .artificial → a.index.toNat = t.nextId →
      row.contains a = false ∧
        Canonical (Tableau.behind { t with nextId := t.nextId + 1 } a row)
          (fun v => S v ∧ v a = row.evaluate v) cost := fun a hkind hindex =>
    have ha := rowless_of_artificial hkind
    h.behind_artificial hrow hproper hfree hkind hindex (hplain a ha).1 (hplain a ha).2
  rw [addWithArtificial_eq, ensures_bind]
  refine (ensures_driveArtificial_of
    (P := fun a t' => t'.Canonical (fun v => S v ∧ v a = row.evaluate v) cost ∧ t'.Lags cost lag)
    (fun _ => enduring_lags) fun a hkind hindex => ?_).imp ?_ fun _ _ _ => trivial
  · refine ⟨(hbehind a hkind hindex).2, fun v hv => ?_⟩
    have hS := ((hbehind a hkind hindex).2.represents.solves_iff v).mp hv
    exact hlags v ((h.represents.solves_iff v).mpr hS.1)
  · rintro a t₁ ⟨⟨hkind, hindex⟩, hcanonical, hlags₁⟩
    obtain ⟨hignores, hcost⟩ := hplain a (rowless_of_artificial hkind)
    refine ensures_bind _ |>.mpr (hcanonical.represents.ensures_retireArtificial_objective.imp
      (fun _ t₂ h₂ => ?_) fun _ _ _ => trivial)
    rw [ensures_modify]
    intro v hv hzero
    have hmet := (behind_update_iff hignores (hbehind a hkind hindex).1 v).mpr ⟨hv, hzero⟩
    rw [objective_dropColumn, Row.evaluate_remove_eq, h₂ _ hmet,
      hlags₁ _ ((hcanonical.represents.solves_iff _).mpr hmet), hcost]

/-- Whichever way an equation is installed, the objective keeps its value where it is met. -/
theorem ensures_insertRow_lags (h : t.Sound False False S cost) (hlags : t.Lags cost lag)
    (hplain : ∀ k : Key, k.Rowless → Ignores S k ∧ CostIgnores cost k ∧ Slope f k 0)
    (hrow : row.Encodes t S f) (hmarks : handle.Marks S cost f) :
    Ensures (insertRow row handle) t (fun _ t' => t'.Lags cost lag) fun _ _ => True := by
  have hvalue : Ensures (insertRow row handle) t
      (fun _ t' => ∀ v, S v → f v = 0 → t'.objective.evaluate v + lag = cost v)
      fun _ _ => True := by
    have hinstall : ∀ {row : Row Rat} {t : Tableau Rat}, t.Represents S cost → t.Lags cost lag →
        row.Encodes t S f → ∀ k, row.coefficientFor k ≠ 0 → ∀ v, S v → f v = 0 →
          (t.install row k).objective.evaluate v + lag = cost v :=
      fun hr hlags hrow k hk v hv hzero => by
        rw [evaluate_objective_install hr.proper_objective hk
          ((hrow.evaluate_eq_zero_iff hv).mpr hzero), hlags v ((hr.solves_iff v).mpr hv)]
    refine ensures_insertRow_of (((ensures_prepareFor h False.elim hrow).and
      (enduring_lags.prepareFor row handle t ⟨h.prepared.canonical, hlags⟩)).imp (fun _ _ => id)
        fun _ _ _ => trivial) ?_ (fun _ _ _ _ _ _ => trivial) ?_ ?_
    all_goals clear hrow h hlags
    · rintro row t subject ⟨⟨-, hrow, -⟩, hcanonical, hlags⟩ hsubject
      exact hinstall hcanonical.represents hlags hrow _
        (Row.subject?_suits hrow.proper hsubject).key.1
    · rintro row t ⟨⟨-, hrow, -⟩, hcanonical, hlags⟩ - - -
      exact hinstall hcanonical.represents hlags hrow _
        (hmarks.coefficientFor_marker_ne_zero hrow hcanonical.represents)
    · rintro row t ⟨⟨-, hrow, -⟩, hcanonical, hlags⟩ hsubject -
      exact (ensures_addWithArtificial_lags hcanonical hlags
        (fun k hk => ⟨(hplain k hk).1, (hplain k hk).2.1⟩) hrow.over_tableau hrow.proper
        (Row.subject?_eq_none hrow.proper hsubject).2).imp
        (fun _ _ h' v hv hzero => h' v hv ((hrow.evaluate_eq_zero_iff hv).mpr hzero))
        fun _ _ => id
  refine ((ensures_insertRow h False.elim hplain hrow hmarks).and hvalue).imp ?_
    fun _ _ _ => trivial
  rintro _ t' ⟨hinserted, hvalue⟩ v hv
  obtain ⟨hS, hzero⟩ := (hinserted.prepared.represents.solves_iff v).mp hv
  exact hvalue v hS hzero

/-- A constraint that comes is as much in the objective as in the cost. -/
theorem ensures_addConstraint_lags (h : t.Sound False False S cost) (hlags : t.Lags cost lag)
    (hplain : ∀ k : Key, k.Rowless → Ignores S k ∧ CostIgnores cost k)
    (hnew : ∀ k, ¬ t.Known k → CostIgnores cost k) (hc : c.OverLayout) (defer : Bool) :
    Ensures (addConstraint c w defer) t
      (fun handle t' => t'.Lags (fun v => cost v + handle.price w v) lag) fun _ _ => True := by
  have hr := h.prepared.represents
  refine ensures_bind _ |>.mpr (((ensures_createRow h hc False.elim).and
    (hlags.ensures_createRow hr.proper_objective c w)).imp ?_ fun _ _ _ => trivial)
  rintro ⟨row, handle⟩ t₁ ⟨⟨hfits, hfresh, h₁, hrow⟩, hlags₁⟩
  have hplain₁ := hfits.plain (s := w) hc hplain
  have hmarks := hr.marks hnew hc w hfits hfresh
  refine ensures_bind _ |>.mpr (((ensures_insertRow h₁ False.elim hplain₁ hrow hmarks).and
    (ensures_insertRow_lags h₁ hlags₁ hplain₁ hrow hmarks)).imp ?_ fun _ _ _ => trivial)
  rintro _ t₂ ⟨hinserted, hlags₂⟩
  refine ensures_bind _ |>.mpr ((enduring_lags.finish defer t₂
    ⟨hinserted.prepared.canonical, hlags₂⟩).imp (fun _ t₃ h₃ => ?_) fun _ _ _ => trivial)
  rw [ensures_pure]
  exact h₃.2

/-! ## Removals -/

/-- Without the prices of some errors, the objective is less by what those cost. -/
theorem Prepared.evaluate_dropPrices {exact quiet : Prop} (h : t.Prepared exact quiet S cost)
    (s : Strength Rat) (errors : List Key)
    (herrors : ∀ k ∈ errors, k.unrestricted = false ∧ t.Known k) (hv : S v) :
    (errors.foldl (·.dropPrice · s) t).objective.evaluate v =
      t.objective.evaluate v - (errors.map fun k => s.value * v k).sum := by
  induction errors generalizing t cost with
  | nil => exact (sub_zero _).symm
  | cons k rest ih =>
    obtain ⟨hk, hknown⟩ := herrors k List.mem_cons_self
    obtain ⟨h', -, -, hid⟩ := h.dropPrice hk hknown s
    rw [List.foldl_cons, ih h' fun k hk => ⟨(herrors k (List.mem_cons_of_mem _ hk)).1,
      fun hinternal => hid ▸ (herrors k (List.mem_cons_of_mem _ hk)).2 hinternal⟩,
      h.represents.evaluate_dropPrice k s hv, List.map_cons, List.sum_cons]
    ring

/-- When the prices of the errors of a constraint are dropped, the objective is less by the price of
the constraint. -/
theorem Prepared.evaluate_dropHandlePrices {exact quiet : Prop} (h : t.Prepared exact quiet S cost)
    (hsplits : handle.Splits S S' cost' f) (s : Strength Rat) (hv : S v) :
    ((handle.markers.filter (·.kind = .error)).foldl (·.dropPrice · s) t).objective.evaluate v =
      t.objective.evaluate v - handle.price s v := by
  rw [h.evaluate_dropPrices s _ (fun k hk =>
    h.represents.known_of_splits hsplits k (List.mem_filter.mp hk).1) hv, Handle.price,
    Handle.prices, List.map_map]
  rfl

/-- Where its equation is met, a marker that goes leaves the objective as it was. -/
theorem Represents.evaluate_dropMarker (h : t.Represents S cost) (marker : Key) (hv : S v) :
    (t.dropMarker marker).objective.evaluate v = t.objective.evaluate v := by
  have herased : ∀ t : Tableau Rat, (t.eraseRow marker).objective = t.objective := fun t =>
    Option.some_inj.mp (targetRow_eraseRow t marker .objective)
  unfold dropMarker
  split
  · rw [herased]
  · split
    · next leaving hleaving =>
      obtain ⟨row, hrow, hcoefficient, -⟩ := markerLeaving?_eq_some hleaving
      rw [herased, h.evaluate_objective_pivot hrow hcoefficient hv]
    · rfl

/-- A constraint that goes takes its prices out of the objective, as out of the cost. -/
theorem Lags.ensures_removeConstraint (hlags : t.Lags cost lag) (h : t.Canonical S cost)
    (hartificial : t.artificial = none) (hsplits : handle.Splits S S' cost' f)
    (hcost : ∀ v, cost v = cost' v + handle.price w v) (defer : Bool) :
    Ensures (removeConstraint handle w defer) t (fun _ t' => t'.Lags cost' lag)
      fun _ _ => True := by
  have hr := h.represents
  have hprepared : t.Prepared False False S cost := ⟨h, False.elim, False.elim, False.elim⟩
  obtain ⟨hdropped, -, hnone⟩ := hprepared.dropHandlePrices hsplits hcost
  have hafter := (hdropped.dropMarker False.elim (hnone.trans hartificial) hsplits False.elim).1
  have hbefore : S (t.complete fun _ => 0) := hr.solves_complete _
  have hlags' : Lags (((handle.markers.filter (·.kind = .error)).foldl (·.dropPrice · w)
      t).dropMarker handle.marker) cost' lag := by
    refine hafter.represents.lags_of_evaluate ((hsplits.split _).mp hbefore).1 ?_
    rw [hdropped.represents.evaluate_dropMarker _ hbefore,
      hprepared.evaluate_dropHandlePrices hsplits w hbefore]
    have hvalue := hlags _ ((hr.solves_iff _).mpr hbefore)
    rw [hcost] at hvalue
    linarith
  exact ensures_removeConstraint_of (((enduring_lags.finish defer).upholds _
    ⟨hafter.canonical, hlags'⟩).imp (fun _ _ => And.right) fun _ _ => id)

/-! ## Targets -/

/-- The tableau in which a target is moved: what was put off is caught up on first. -/
def caughtUp (t : Tableau Rat) : Tableau Rat := if t.deferred then (solve.outcome t).2 else t

/-- A moved target makes the cost of a solution rise with its strength, and the value of the
objective with the coefficient that the first error has there. -/
theorem Lags.targetShift (hlags : t.Lags cost lag) (h : t.Represents S cost)
    (hmoves : handle.Moves minus delta S S' cost) {price : Rat}
    (hprice : Slope cost handle.marker price) :
    (t.shift (t.targetShift handle.marker minus delta)).Lags cost
      (lag + (price - t.objective.coefficientFor handle.marker) * delta) := by
  have hbefore := h.solves_complete fun _ => 0
  refine (h.targetShift hmoves).lags_of_evaluate
    (v := Function.update (t.complete fun _ => 0) handle.marker
      ((t.complete fun _ => 0) handle.marker + delta)) ((hmoves.plus _).mpr ?_) ?_
  · rwa [Function.update_self, Function.update_idem, add_sub_cancel_right, Function.update_eq_self]
  · have hsame : (t.shift (t.targetShift handle.marker minus delta)).objective = t.objective := rfl
    have hvalue := hlags _ ((h.solves_iff _).mpr hbefore)
    rw [hsame, Row.evaluate_update, hprice, ← hvalue]
    ring

/-- What a moved target adds to what the objective is behind. -/
theorem Lags.ensures_suggest (hlags : t.Lags cost lag) (h : t.Canonical S cost)
    (hmoves : handle.Moves minus delta S S' cost) {price : Rat}
    (hprice : Slope cost handle.marker price) :
    Ensures (suggest handle delta) t
      (fun _ t' => t'.Lags cost
        (lag + (price - t.caughtUp.objective.coefficientFor handle.marker) * delta))
      fun _ _ => True := by
  refine ensures_suggest_of_moves hmoves
    (P := fun t' => t' = t.caughtUp ∧ t'.Canonical S cost ∧ t'.Lags cost lag)
    (fun hdeferred => ⟨?_, h, hlags⟩) (fun hdeferred => ?_) ?_
  · rw [caughtUp, hdeferred, if_neg Bool.false_ne_true]
  · refine ((enduring_lags.solve t ⟨h, hlags⟩).and ensures_self).imp ?_ fun _ _ _ => trivial
    rintro _ t' ⟨⟨h', hlags'⟩, heq⟩
    refine ⟨?_, h', hlags'⟩
    rw [caughtUp, hdeferred, if_pos rfl, Attempt.outcome, heq]
  · rintro _ ⟨rfl, h, hlags⟩
    have hmoved : (t.caughtUp.shift (t.caughtUp.targetShift handle.marker minus delta)).Canonical
        S' cost :=
      ⟨h.represents.targetShift hmoves, h.layered.shift, h.queue.reviseAndQueue _⟩
    exact (enduring_lags.dualOptimize.upholds _
      ⟨hmoved, hlags.targetShift h.represents hmoves hprice⟩).imp (fun _ _ => And.right)
        fun _ _ => id

end Tableau

/-! ## States -/

namespace State

variable {s s' : State Rat} {h : Handle} {r : Record Rat} {x : Variable} {e : Edit Rat} {k : Key}
  {lag : Rat} {exact quiet : Prop}

/-- The objective is behind what the constraints cost. -/
def Lags (s : State Rat) (lag : Rat) : Prop := s.tableau.Lags s.charge lag

/-- The books matter only for the constraints that are held. -/
theorem Lags.of_eq (h : s.Lags lag) (htableau : s'.tableau = s.tableau)
    (hconstraints : s'.constraints = s.constraints) : s'.Lags lag := by
  intro v hv
  rw [htableau] at hv ⊢
  rw [charge_of_eq hconstraints, h v hv]

/-- Without constraints and with an empty objective, the objective is not behind. -/
theorem lags_of_empty (hobjective : s.tableau.objective = .ofConstant 0)
    (hconstraints : s.constraints = ∅) : s.Lags 0 := by
  intro v _
  have hcharge : s.charge v = 0 := by rw [charge, hconstraints]; rfl
  rw [hobjective, hcharge, add_zero]
  rfl

theorem Tidy.other_ne_marker (hs : s.Tidy) (hr : s.constraints.get? h = some r)
    (hother : h.other = some k) : k ≠ h.marker := by
  rintro rfl
  have hnodup := hs.nodup _ _ hr
  simp [Handle.markers, hother] at hnodup

/-- The cost rises with the first error of the constraint that holds an edit variable, as its
strength says. -/
theorem Tidy.slope_charge (hs : s.Tidy) (he : s.edits.get? x = some e) :
    ∃ r, s.constraints.get? e.handle = some r ∧
      Slope s.charge e.handle.marker r.strength.value := by
  obtain ⟨r, hr, ⟨_, hheld⟩, hsoft⟩ := hs.edit x e he
  have hfits := hs.fits _ _ hr
  rw [hheld, x.relation_heldAt, hsoft] at hfits
  have ⟨_, minus, hother, _⟩ := hfits
  refine ⟨r, hr, fun v y => ?_⟩
  rw [charge_unregister hr, charge_unregister hr v, (hs.splits hr).costIgnores,
    hfits.price_of_equal hother, hfits.price_of_equal hother, Function.update_self,
    Function.update_of_ne (hs.other_ne_marker hr hother)]
  ring

/-! ## What is found -/

/-- The two symbols of a constraint make up for each other. -/
theorem Tidy.equations_update_symbols (hs : s.Tidy) (hr : s.constraints.get? h = some r)
    (hother : h.other = some k) {v : Assignment Rat} (hv : s.Equations v) (y : Rat) :
    s.Equations (Function.update (Function.update v h.marker (v h.marker + y)) k (v k + y)) := by
  have hsplits := hs.splits hr
  have hmem : k ∈ h.markers := Handle.mem_markers.mpr (.inr hother)
  have hignores : Ignores (s.unregister h).Equations k := by
    refine (hs.unregister hr).equations_ignores ((hs.fits h r hr).unrestricted hmem)
      fun h' r' hr' hmem' => ?_
    obtain ⟨hne, hr'⟩ := get?_of_unregister hr hr'
    exact hne (hs.apart h' r' h r k hr' hr hmem' hmem)
  obtain ⟨hrest, hequation⟩ := (hsplits.split _).mp hv
  refine (hsplits.split _).mpr ⟨hignores _ _ (hsplits.ignores _ _ hrest), ?_⟩
  rw [hsplits.other k hother, hsplits.marker, hequation,
    Function.update_of_ne (hs.other_ne_marker hr hother)]
  ring

/-- At the basic solution, at most one of the two symbols of a constraint is not zero. -/
theorem Sound.basicSolution_eq_zero (hs : s.Sound exact quiet)
    (hr : s.constraints.get? h = some r) (hother : h.other = some k) :
    s.tableau.basicSolution h.marker = 0 ∨ s.tableau.basicSolution k = 0 := by
  have hrepresents := hs.tableau.prepared.represents
  by_contra hboth
  rw [not_or] at hboth
  obtain ⟨row, hrow⟩ : ∃ row, s.tableau.rows.get? h.marker = some row := by
    by_contra hnone
    exact hboth.1 (Tableau.basicSolution_of_get?_eq_none
      (Option.eq_none_iff_forall_ne_some.mpr fun row hrow => hnone ⟨row, hrow⟩))
  have hbasic : s.tableau.isBasic k = true := by
    by_contra hnot
    exact hboth.2 (Tableau.basicSolution_of_get?_eq_none
      (Tableau.isBasic_eq_false_iff.mp (Bool.not_eq_true _ ▸ hnot)))
  -- If both are moved by the same amount, the row of the first one does not notice
  have hmoved := hrepresents.evaluate_row hrow
    (hs.tidy.equations_update_symbols hr hother hs.equations_basicSolution 1)
  rw [Row.evaluate_update, Row.evaluate_update, hrepresents.coefficientFor_self hrow,
    (hrepresents.over_row hrow).coefficientFor_basic (hrepresents.proper_row hrow) hbasic, zero_mul,
    zero_mul, add_zero, add_zero, hrepresents.evaluate_row hrow hs.equations_basicSolution,
    Function.update_of_ne (hs.tidy.other_ne_marker hr hother).symm, Function.update_self] at hmoved
  linarith

/-- What a tableau finds costs what its violations cost. -/
theorem Sound.charge_basicSolution (hs : s.Sound exact quiet) (hexact : exact) :
    s.charge s.tableau.basicSolution = s.cost s.tableau.basicSolution := by
  have hnonneg := (hs.tableau.feasible hexact).basicSolution_nonnegative
  rw [cost_eq, charge]
  refine congrArg List.sum (List.map_congr_left fun e he => ?_)
  have hr := Table.get?_eq_some_iff.mpr he
  have hfits := hs.tidy.fits_current hr
  split
  · next hrequired =>
    rw [hrequired] at hfits
    exact hfits.price_of_required _ _
  · next hsoft =>
    rw [Bool.not_eq_true] at hsoft
    rw [hsoft] at hfits
    exact hfits.price_eq_of_eq_zero (equations_iff.mp hs.equations_basicSolution _ _ hr) hnonneg
      (fun _ hother => hs.basicSolution_eq_zero hr hother) _

end State

/-! ## Accounts -/

namespace Solver

/-- What the objective falls behind when a target is moved: the cost rises with the strength of the
constraint, and the objective with the coefficient that the first error has there. -/
def shortfall (s : Solver Rat) (x : Variable) (target : Rat) : Rat :=
  match s.state.edits.get? x with
  | none => 0
  | some e => match s.state.constraints.get? e.handle with
    | none => 0
    | some r => (r.strength.value - s.opening.caughtUp.objective.coefficientFor e.handle.marker) *
        (target - e.target)

end Solver

/-- How far the objective is behind the cost, now and in the state that an open batch goes back
to. -/
structure Account where
  now : Rat
  saved : Rat

namespace Account

/-- The account after an operation that has not failed. -/
def done (a : Account) (s : Solver Rat) : Operation Rat → Account
  | .suggest x target => { a with now := a.now + s.shortfall x target }
  | .openBatch => { a with saved := a.now }
  | .clear => ⟨0, 0⟩
  | _ => a

/-- The account after an operation that has failed. A batch that cannot be closed goes back to the
state that it was opened in. -/
def failed (a : Account) (s : Solver Rat) : Operation Rat → Account
  | .closeBatch => if s.isBatching then { a with now := a.saved } else a
  | _ => a

/-- The account after an operation. -/
def after (a : Account) (s : Solver Rat) (o : Operation Rat) : Account :=
  match (s.step o).1 with
  | .ok _ => a.done s o
  | .error _ => a.failed s o

end Account

namespace Solver

variable {config : Config Rat} {s s' : Solver Rat} {a : Account} {os : List (Operation Rat)}
  {o : Operation Rat} {c : Constraint Rat} {w : Strength Rat} {h : Handle} {x : Variable}

/-- The account after a run. -/
def account (s : Solver Rat) (a : Account) : List (Operation Rat) → Account
  | [] => a
  | o :: os => (s.step o).2.account (a.after s o) os

/-- Unless the solver is poisoned, an account says how far its objective is behind. -/
def Tallies (s : Solver Rat) (a : Account) : Prop :=
  s.poisoned = false → s.state.Lags a.now ∧
    ∀ b state, s.batch = some b → b.snapshot = some state → state.Lags a.saved

theorem Tallies.of_eq (hs : s.Tallies a) (htableau : s'.state.tableau = s.state.tableau)
    (hconstraints : s'.state.constraints = s.state.constraints) (hbatch : s'.batch = s.batch)
    (hpoisoned : s'.poisoned = s.poisoned) : s'.Tallies a := fun hfalse =>
  have ⟨hnow, hsaved⟩ := hs (hpoisoned.symm.trans hfalse)
  ⟨hnow.of_eq htableau hconstraints, hbatch ▸ hsaved⟩

theorem Tallies.of_failed (hs : s.Tallies a) (hfailed : s.Failed s') : s'.Tallies a := by
  rcases hfailed with htrue | ⟨n, rfl⟩
  · exact fun hfalse => absurd (htrue.symm.trans hfalse) nofun
  · exact hs

theorem objective_opening (s : Solver Rat) : s.opening.objective = s.state.tableau.objective := by
  rcases s.opening_cases with heq | heq
  · rw [heq]
  · rw [heq]
    rfl

theorem Tallies.opening (hs : s.Tallies a) (hpoisoned : s.poisoned = false) :
    s.opening.Lags s.state.charge a.now :=
  Tableau.Lags.of_eq (hs hpoisoned).1 (rows_opening s) (objective_opening s)

section Sound

variable (hrest : s.AtRest config) (hsound : s.Sound False False) (hpoisoned : s.poisoned = false)
  (hs : s.Tallies a)
include hrest hsound hpoisoned hs

theorem Tallies.ensures_insert (hc : c.OverLayout) :
    Ensures (insert c w) s (fun _ s' => s'.Tallies a) fun _ s' => s'.Tallies a := by
  have hstate := hsound.state
  refine ensures_insert_of ((ensures_guarded_opening (fun _ => Tableau.keeps_addConstraint c w _)
    hrest ((hstate.ensures_addConstraint s.opening_cases hc False.elim s.isBatching).and
      (Tableau.ensures_addConstraint_lags hsound.opening (hs.opening hpoisoned)
        (fun _ hk => hstate.ignores_of_rowless hk) (fun _ hk => hstate.costIgnores_of_not_known
          fun hknown => hk fun hinternal => (nextId_opening s).symm ▸ hknown hinternal)
        hc s.isBatching))).imp ?_ fun _ _ h => hs.of_failed h.2)
  rintro h s' ⟨t, ⟨⟨⟨-, hfresh⟩, -⟩, hlags⟩, rfl⟩
  refine fun hfalse => ⟨fun v hv => ?_, (hs hfalse).2⟩
  have hnew := (hstate.get?_of_fresh hfresh).1
  have hbooks : (({ s.state with tableau := t.commit } : State Rat).register h ⟨c, w⟩).constraints =
      (s.state.register h ⟨c, w⟩).constraints := rfl
  rw [State.charge_of_eq hbooks, State.charge_register hnew]
  exact hlags v hv

theorem Tallies.ensures_remove : Ensures (remove h) s (fun _ s' => s'.Tallies a)
    fun _ s' => s'.Tallies a := by
  have hstate := hsound.state
  refine ensures_remove_of (fun _ => hs) fun r hr => ?_
  refine (ensures_guarded_opening (fun _ => Tableau.keeps_removeConstraint h r.strength _) hrest
    ((hs.opening hpoisoned).ensures_removeConstraint hsound.opening.prepared.canonical
      hrest.artificial_opening (hstate.tidy.splits hr) (State.charge_unregister hr)
      s.isBatching)).imp ?_ fun _ _ h => hs.of_failed h.2
  rintro _ _ ⟨t, hlags, rfl⟩
  have hr' : ({ s.state with tableau := t.commit } : State Rat).constraints.get? h = some r := hr
  dsimp only
  rw [State.unregister_eq hr']
  rw [State.unregister_eq hr] at hlags
  exact fun hfalse => ⟨hlags, (hs hfalse).2⟩

theorem Tallies.ensures_suggest (target : Rat) :
    Ensures (suggest x target) s
      (fun _ s' => s'.Tallies { a with now := a.now + s.shortfall x target })
      fun _ s' => s'.Tallies a := by
  have hstate := hsound.state
  refine ensures_suggest_of (fun _ => hs) fun e he => ?_
  obtain ⟨minus, hmoves⟩ := hstate.tidy.moves he target
  obtain ⟨r, hr, hprice⟩ := hstate.tidy.slope_charge he
  have hshortfall : s.shortfall x target = (r.strength.value -
      s.opening.caughtUp.objective.coefficientFor e.handle.marker) * (target - e.target) := by
    simp only [shortfall, he, hr]
  refine (ensures_guarded_opening (fun _ => Tableau.keeps_suggest e.handle _) hrest
    ((hs.opening hpoisoned).ensures_suggest hsound.opening.prepared.canonical hmoves
      hprice)).imp ?_ fun _ _ h => hs.of_failed h.2
  rintro _ _ ⟨t, hlags, rfl⟩
  rw [hshortfall]
  exact fun hfalse => ⟨hlags, (hs hfalse).2⟩

end Sound

/-- A batch that is opened notes the account of the state that it may go back to. -/
theorem Tallies.ensures_openBatch (hs : s.Tallies a) :
    Ensures openBatch s (fun _ s' => s'.Tallies { a with saved := a.now })
      fun _ s' => s'.Tallies a := by
  refine ensures_openBatch_of (fun _ => hs) fun _ b hb hfalse => ⟨(hs hfalse).1, ?_⟩
  rintro _ state ⟨⟩ hsnapshot
  rw [hb state hsnapshot]
  exact (hs hfalse).1

theorem Tallies.ensures_closeBatch (hsound : s.poisoned = false → s.Sound False False)
    (hs : s.Tallies a) :
    Ensures closeBatch s (fun _ s' => s'.Tallies a)
      fun _ s' => s'.Tallies (a.failed s .closeBatch) := by
  have hsolve : Ensures Tableau.solve s.state.tableau
      (fun _ t => s.poisoned = false → t.Lags s.state.charge a.now) fun _ _ => True := by
    cases hpoisoned : s.poisoned with
    | true => exact ensures_self.imp (fun _ _ _ hfalse => by cases hfalse) fun _ _ _ => trivial
    | false =>
      exact (Tableau.enduring_lags.solve _ ⟨(hsound hpoisoned).state.tableau.prepared.canonical,
        (hs hpoisoned).1⟩).imp (fun _ _ h _ => h.2) fun _ _ _ => trivial
  refine ensures_closeBatch_of (fun hnone => ?_) fun b hb => hsolve.imp
    (fun _ t ht hpoisoned => ⟨ht hpoisoned, fun _ _ hopen => by cases hopen⟩) fun _ _ _ =>
      ⟨fun state hsnapshot hpoisoned => ?_, fun _ hpoisoned => by cases hpoisoned⟩
  · rw [Account.failed, if_neg (by simp [isBatching, hnone])]
    exact hs
  · rw [Account.failed, if_pos (by simp [isBatching, hb])]
    exact ⟨(hs hpoisoned).2 b state hb hsnapshot, fun _ _ hopen => by cases hopen⟩

/-- An account is kept by every operation. -/
theorem tallies_step (hrest : s.AtRest config) (hsound : s.poisoned = false → s.Sound False False)
    (hs : s.Tallies a) (ho : o.Lawful False) : (s.step o).2.Tallies (a.after s o) := by
  have hensures : o ≠ .clear → s.poisoned = false →
      Ensures (perform o) s (fun _ s' => s'.Tallies (a.done s o))
        fun _ s' => s'.Tallies (a.failed s o) := by
    intro hclear hpoisoned
    have hedits : ∀ (s : Solver Rat) edits, s.Tallies a →
        Tallies { s with state := { s.state with edits := edits } } a :=
      fun _ _ hs => hs.of_eq rfl rfl rfl rfl
    cases o with
    | insert c w =>
      exact ensures_map _ |>.mpr (hs.ensures_insert hrest (hsound hpoisoned) hpoisoned ho.1)
    | remove h => exact ensures_map _ |>.mpr (hs.ensures_remove hrest (hsound hpoisoned) hpoisoned)
    | startEdit x w =>
      exact ensures_perform_single (o := .startEdit x w) rfl hs hedits
        (fun c w hadded => hs.ensures_insert hrest (hsound hpoisoned) hpoisoned
          (by cases hadded; exact x.overLayout_heldAt _))
        (fun _ _ => hs.ensures_remove hrest (hsound hpoisoned) hpoisoned) nofun
    | stopEdit x =>
      exact ensures_perform_single (o := .stopEdit x) rfl hs hedits nofun
        (fun _ _ => hs.ensures_remove hrest (hsound hpoisoned) hpoisoned) nofun
    | suggest x target =>
      exact ensures_bind _ |>.mpr (hs.ensures_suggest hrest (hsound hpoisoned) hpoisoned target)
    | openBatch => exact ensures_bind _ |>.mpr hs.ensures_openBatch
    | closeBatch => exact ensures_bind _ |>.mpr (hs.ensures_closeBatch hsound)
    | clear => exact absurd rfl hclear
  by_cases hclear : o = .clear
  · rw [hclear]
    exact fun _ => ⟨State.lags_of_empty rfl rfl, fun _ _ hopen => by cases hopen⟩
  cases hpoisoned : s.poisoned with
  | true =>
    have hstill : (s.step o).2.poisoned = true := (keeps_poisoned hclear).outcome hpoisoned
    exact fun hfalse => absurd (hstill.symm.trans hfalse) nofun
  | false =>
    unfold Account.after
    rcases (hensures hclear hpoisoned).outcome with ⟨_, hanswer, h⟩ | ⟨_, hanswer, h⟩
    · rw [step, hanswer]
      exact h
    · rw [step, hanswer]
      exact h

/-- The account is kept by every run of lawful operations. -/
theorem tallies_run (hos : ∀ o ∈ os, o.Lawful False) (hrest : s.AtRest config)
    (hsound : s.poisoned = false → s.Sound False False) (hs : s.Tallies a) :
    (s.run os).Tallies (s.account a os) := by
  induction os generalizing s a with
  | nil => exact hs
  | cons o os ih =>
    have ho := hos o List.mem_cons_self
    exact ih (fun o ho => hos o (List.mem_cons_of_mem _ ho)) ((keeps_perform o).outcome hrest)
      (sound_step False.elim hrest hsound ho False.elim) (tallies_step hrest hsound hs ho)

/-- An account that nothing falls short of stays even. -/
theorem account_of_forall_shortfall (hfull : ∀ before x target after,
      os = before ++ .suggest x target :: after → (s.run before).shortfall x target = 0) :
    s.account ⟨0, 0⟩ os = ⟨0, 0⟩ := by
  induction os generalizing s with
  | nil => rfl
  | cons o os ih =>
    have hafter : (⟨0, 0⟩ : Account).after s o = ⟨0, 0⟩ := by
      unfold Account.after
      split
      · cases o with
        | suggest x target =>
          have hzero : s.shortfall x target = 0 := hfull [] x target os rfl
          rw [Account.done, hzero, add_zero]
        | _ => rfl
      · cases o with
        | closeBatch => exact ite_self _
        | _ => rfl
    rw [account, hafter]
    exact ih fun before x target after hos => hfull (o :: before) x target after (hos ▸ rfl)

/-- In rational arithmetic without a tolerance, let any run leave the solver with values, in a batch
or not. At every solution of the rows the objective is the cost of the errors, less what the account
says that it is behind; and its constant is the cost of all violations, less that amount. The
account is a sum of shortfalls, and without a suggestion that falls short it is even. -/
theorem run_tallied (hepsilon : config.epsilon = 0) (hos : ∀ o ∈ os, o.Lawful True)
    (hpoisoned : ((ofConfig config).run os).poisoned = false) :
    (∀ v, ((ofConfig config).run os).state.tableau.Solves v →
      ((ofConfig config).run os).state.tableau.objective.evaluate v +
          ((ofConfig config).account ⟨0, 0⟩ os).now = ((ofConfig config).run os).state.charge v) ∧
    ((ofConfig config).run os).state.tableau.objective.constant +
        ((ofConfig config).account ⟨0, 0⟩ os).now =
      ((ofConfig config).run os).state.cost ((ofConfig config).run os).assignment ∧
    ((∀ before x target after, os = before ++ .suggest x target :: after →
        ((ofConfig config).run before).shortfall x target = 0) →
      ((ofConfig config).account ⟨0, 0⟩ os).now = 0) := by
  have hsound : ((ofConfig config).run os).Sound True False :=
    sound_run (fun _ => hepsilon) hos (fun _ => False.elim) hpoisoned
  have htallies : ((ofConfig config).run os).Tallies ((ofConfig config).account ⟨0, 0⟩ os) :=
    tallies_run (fun o ho => (hos o ho).imp False.elim) (atRest_ofConfig config)
      (fun _ => sound_ofConfig False.elim)
      fun _ => ⟨State.lags_of_empty rfl rfl, fun _ _ hopen => by cases hopen⟩
  have hlags := (htallies hpoisoned).1
  refine ⟨hlags, ?_, fun hfull => ?_⟩
  · have hr := hsound.state.tableau.prepared.represents
    have hvalue := hlags _ ((hr.solves_iff _).mpr hsound.state.equations_basicSolution)
    rw [Tableau.basicSolution, Tableau.evaluate_complete hr.separated.objective hr.proper_objective,
      Row.evaluate_zero] at hvalue
    rw [hvalue, hsound.state.tidy.cost_congr fun _ => assignment_eq hpoisoned]
    exact hsound.state.charge_basicSolution trivial
  · rw [account_of_forall_shortfall hfull]

/-- A variable that nothing else holds is edited, and its target moves. -/
def loose : List (Operation Rat) := [.startEdit (.external 0) .weak, .suggest (.external 0) 10]

/-- A variable that is held at zero is edited, and its target moves away and, in a batch, half the
way back. -/
def tugged : List (Operation Rat) :=
  [.insert ((Variable.external 0).heldAt 0) .required, .startEdit (.external 0) .weak,
    .suggest (.external 0) 10, .openBatch, .suggest (.external 0) 5]

theorem lawful_tugged : ∀ o ∈ tugged, o.Lawful True := by
  have hrequired : 0 ≤ (Strength.required : Strength Rat).value := by decide +kernel
  have hweak : 0 ≤ (Strength.weak : Strength Rat).value := by decide +kernel
  intro o ho
  simp only [tugged, List.mem_cons, List.not_mem_nil, or_false] at ho
  rcases ho with rfl | rfl | rfl | rfl | rfl
  · exact ⟨Variable.overLayout_heldAt _ _, fun _ => hrequired⟩
  · exact fun _ => hweak
  all_goals trivial

/-- The moves have put the objective behind by a negative amount, and where the variable is loose
they have not put it behind at all. -/
theorem run_tallied_tugged :
    ((∀ v, ((ofConfig ⟨0, true, 100⟩).run tugged).state.tableau.Solves v →
        ((ofConfig ⟨0, true, 100⟩).run tugged).state.tableau.objective.evaluate v + -15 =
          ((ofConfig ⟨0, true, 100⟩).run tugged).state.charge v) ∧
      ((ofConfig ⟨0, true, 100⟩).run tugged).state.tableau.objective.constant + -15 =
        ((ofConfig ⟨0, true, 100⟩).run tugged).state.cost
          ((ofConfig ⟨0, true, 100⟩).run tugged).assignment) ∧
    ((ofConfig ⟨0, true, 100⟩).account ⟨0, 0⟩ loose).now = 0 := by
  have htugged : ((ofConfig ⟨0, true, 100⟩).account ⟨0, 0⟩ tugged).now = -15 := by decide +kernel
  have hweak : 0 ≤ (Strength.weak : Strength Rat).value := by decide +kernel
  have hloose : ∀ o ∈ loose, o.Lawful True := by
    intro o ho
    simp only [loose, List.mem_cons, List.not_mem_nil, or_false] at ho
    rcases ho with rfl | rfl
    · exact fun _ => hweak
    · trivial
  refine ⟨?_, (@run_tallied ⟨0, true, 100⟩ loose rfl hloose (by decide +kernel)).2.2 ?_⟩
  · obtain ⟨hvalue, hconstant, -⟩ :=
      @run_tallied ⟨0, true, 100⟩ tugged rfl lawful_tugged (by decide +kernel)
    rw [htugged] at hvalue hconstant
    exact ⟨hvalue, hconstant⟩
  · intro before x target after hos
    rcases before with _ | ⟨o, _ | ⟨o', before⟩⟩
    · cases hos
    · cases hos
      decide +kernel
    · have hlength := congrArg List.length hos
      simp [loose] at hlength

/-- The variable stays at zero while its target moves to ten, so the violation costs ten. The
objective says twenty for what is found. -/
theorem run_not_tallied :
    (∀ o ∈ tugged.take 3, o.Lawful True) ∧
    ((ofConfig ⟨0, true, 100⟩).run (tugged.take 3)).poisoned = false ∧
    ((ofConfig ⟨0, true, 100⟩).run (tugged.take 3)).batch.isNone ∧
    ((ofConfig ⟨0, true, 100⟩).run (tugged.take 3)).state.tableau.objective.constant = 20 ∧
    ((ofConfig ⟨0, true, 100⟩).run (tugged.take 3)).state.cost
      ((ofConfig ⟨0, true, 100⟩).run (tugged.take 3)).assignment = 10 ∧
    ¬ ∀ v, ((ofConfig ⟨0, true, 100⟩).run (tugged.take 3)).state.tableau.Solves v →
      ((ofConfig ⟨0, true, 100⟩).run (tugged.take 3)).state.tableau.objective.evaluate v =
        ((ofConfig ⟨0, true, 100⟩).run (tugged.take 3)).state.charge v := by
  refine ⟨fun o ho => lawful_tugged o (List.mem_of_mem_take ho), by decide +kernel,
    by decide +kernel, by decide +kernel, by decide +kernel, fun hall => ?_⟩
  have hsolves : ((ofConfig ⟨0, true, 100⟩).run (tugged.take 3)).state.tableau.Solves
      ((ofConfig ⟨0, true, 100⟩).run (tugged.take 3)).state.tableau.basicSolution := by
    unfold Tableau.Solves
    decide +kernel
  exact absurd (hall _ hsolves) (by decide +kernel)

end Solver

end Cassowary
