import Cassowary.Proofs.Assembly

/-!
# What a failed insertion leaves behind

A solver that undoes failures is as before when a constraint has been refused. One that does not
keeps whatever the insertion had come to, and if it does so in a batch, closing the batch goes on
from there. What is left is not a tableau as between two operations: a row that waited for repair
may have been taken from the queue, and the equation of the refused constraint may be in or not. But
it represents the equations, and it is feasible or its objective is optimal, so that one of the
methods can go on.

So closing such a batch fails for the limit on pivots, or for a contradiction that there is.
Together with the answers of the insertions this gives the answer to a whole batch that stops at the
first failure. Nothing is claimed about constraints that ask for an artificial variable, which may
be left behind as well.

## Main definitions

* `Tableau.Resumable` — what solving can go on from after a failure
* `Tableau.Leaves` — such a tableau, and costs with a bound

## Main results

* `Tableau.Resumable.ensures_solve` — solving goes on
* `Tableau.ensures_addConstraint_leaves` — what a failed insertion leaves
* `Solver.Working.told_insertAll` — what is told in the end of a batch
-/

namespace Cassowary

open Attempt

namespace Tableau

variable {t t' : Tableau Rat} {S S' : Assignment Rat → Prop} {cost f : Assignment Rat → Rat}
  {row : Row Rat} {leaving : Key} {handle : Handle} {quiet : Prop}

/-! ## Going on -/

/-- A tableau that one of the methods can go on from. Violated rows need not be queued. -/
structure Resumable (t : Tableau Rat) (S : Assignment Rat → Prop) (cost : Assignment Rat → Rat) :
    Prop where
  canonical : t.Canonical S cost
  epsilon : t.epsilon = 0
  sign : t.Feasible ∨ t.objective.Minimal

theorem Sound.resumable (h : t.Sound True quiet S cost) : t.Resumable S cost :=
  ⟨h.prepared.canonical, h.prepared.epsilon trivial, .inl (h.feasible trivial)⟩

theorem Inserted.resumable (h : t.Inserted True quiet S cost handle) : t.Resumable S cost :=
  ⟨h.prepared.canonical, h.prepared.epsilon trivial, h.sign trivial⟩

/-- Symbols that have been given out to no use do not matter. -/
theorem Sound.of_issue (h : t.Sound True quiet S cost) {n : Nat} (hn : t.nextId ≤ n)
    (journal : Option (Journal Rat)) :
    Tableau.Sound True quiet { t with nextId := n, journal := journal } S cost :=
  ⟨h.prepared.of_eq rfl rfl (.inl rfl) hn rfl rfl, h.queue, h.optimal⟩

/-- The search for a violated row drops the rows before it from the queue, which leaves a canonical
tableau canonical. -/
theorem Canonical.shorten (h : t.Canonical S cost) {rest : List Key}
    (hnext : t.nextViolated t.infeasible = some (leaving, row, rest)) :
    Canonical { t with infeasible := rest } S cost :=
  h.of_eq rfl rfl (.inl rfl) le_rfl fun _ hk => subset_of_nextViolated hnext hk

/-- A violated row without a variable that may enter cannot be met, queued or not. -/
theorem Canonical.not_exists_admissible (h : t.Canonical S cost) (hepsilon : t.epsilon = 0)
    {rest : List Key} (hnext : t.nextViolated t.infeasible = some (leaving, row, rest))
    (hentering : t.dualEntering? row = none) : ¬ ∃ v, S v ∧ v.Admissible := by
  rintro ⟨v, hv, hadmissible⟩
  obtain ⟨hrow, hneg, -⟩ := nextViolated_eq_some hnext
  rw [hepsilon, neg_zero] at hneg
  have hleaving := h.queue leaving (mem_of_nextViolated hnext)
  have hle := Row.evaluate_le_constant (fun k hk => nonpos_of_dualEntering?_eq_none hentering hk)
    (fun k hk => h.layered.row hrow hleaving hk) hadmissible
  rw [h.represents.evaluate_row hrow hv] at hle
  linarith [hadmissible.nonnegative leaving hleaving]

/-- The primal method goes on from feasible rows, and fails for the limit only. -/
theorem Resumable.ensures_optimize (h : t.Resumable S cost) (hbounded : Bounded S cost)
    (hfeasible : t.Feasible) :
    Ensures (optimize .objective) t
      (fun _ t' => t'.Resumable S cost ∧ t'.objective.Minimal)
      fun cause t' => t'.Resumable S cost ∧ ∃ n, cause = .iterationLimit n := by
  refine ensures_iterate (P := fun t => t.Canonical S cost ∧ t.epsilon = 0 ∧ t.Feasible) ?_ ?_ ?_ ?_
    _ ⟨h.canonical, h.epsilon, hfeasible⟩
  · rintro t t' ⟨h, hepsilon, hfeasible⟩ hrule
    obtain ⟨rfl, hnone⟩ := primalRule_finished hrule
    have hminimal := minimal_of_entering?_eq_none hepsilon (hnone _ rfl)
    exact ⟨⟨h, hepsilon, .inr hminimal⟩, hminimal⟩
  -- A column without a row to leave would make the costs unbounded
  · rintro t t' cause ⟨h, hepsilon, hfeasible⟩ hrule
    obtain ⟨x, hmeasures⟩ := h.represents.exists_measures
    exact absurd (hbounded.add_const x)
      (not_bounded_of_impossible h.represents hepsilon hfeasible hmeasures hrule)
  · rintro t t' entering leaving ⟨h, hepsilon, hfeasible⟩ hrule
    obtain ⟨rfl, goal, -, hentering, hleaving⟩ := primalRule_pivot hrule
    obtain ⟨row, hrow, hrestricted, hneg⟩ := leaving?_eq_some hleaving
    exact ⟨h.pivot hrow hneg.ne hrestricted, (epsilon_pivot _ _ _).trans hepsilon,
      hfeasible.pivot h.represents.separated.eliminated hleaving⟩
  · rintro t t' entering leaving ⟨h, hepsilon, hfeasible⟩ hrule
    obtain ⟨rfl, -⟩ := primalRule_pivot hrule
    exact ⟨⟨h, hepsilon, .inl hfeasible⟩, _, rfl⟩

/-- The dual method goes on from an optimal objective, and fails for the limit or a
contradiction. -/
theorem Resumable.ensures_dualOptimize (h : t.Resumable S cost) (hminimal : t.objective.Minimal) :
    Ensures dualOptimize t (fun _ _ => True)
      fun cause t' => t'.Resumable S cost ∧ ((∃ n, cause = .iterationLimit n) ∨
        cause = .unsatisfiable ∧ ¬ ∃ v, S v ∧ v.Admissible) := by
  refine ensures_iterate (P := fun t => t.Canonical S cost ∧ t.epsilon = 0 ∧ t.objective.Minimal)
    (fun _ _ => trivial) ?_ ?_ ?_ _ ⟨h.canonical, h.epsilon, hminimal⟩
  · rintro t t' cause ⟨h, hepsilon, hminimal⟩ hrule
    obtain ⟨rfl, leaving, row, rest, rfl, hnext, hentering⟩ := dualRule_impossible hrule
    exact ⟨⟨h.shorten hnext, hepsilon, .inr hminimal⟩,
      .inr ⟨rfl, h.not_exists_admissible hepsilon hnext hentering⟩⟩
  · rintro t t' entering leaving ⟨h, hepsilon, hminimal⟩ hrule
    obtain ⟨row, rest, rfl, hnext, hentering⟩ := dualRule_pivot hrule
    obtain ⟨hrow, -⟩ := nextViolated_eq_some hnext
    obtain ⟨-, hpos⟩ := dualEntering?_eq_some_rat hentering
    have hrest := h.shorten hnext
    exact ⟨hrest.pivot hrow hpos.ne' (h.queue leaving (mem_of_nextViolated hnext)),
      (epsilon_pivot _ _ _).trans hepsilon,
      minimal_dual_pivot hrest.represents.separated hepsilon hminimal hrow hentering⟩
  · rintro t t' entering leaving ⟨h, hepsilon, hminimal⟩ hrule
    obtain ⟨row, rest, rfl, hnext, -⟩ := dualRule_pivot hrule
    exact ⟨⟨h.shorten hnext, hepsilon, .inr hminimal⟩, .inl ⟨_, rfl⟩⟩

/-- Both methods go on, and fail for the limit or a contradiction. -/
theorem Resumable.ensures_solve (h : t.Resumable S cost) (hbounded : Bounded S cost) :
    Ensures solve t (fun _ _ => True)
      fun cause t' => t'.Resumable S cost ∧ ((∃ n, cause = .iterationLimit n) ∨
        cause = .unsatisfiable ∧ ¬ ∃ v, S v ∧ v.Admissible) := by
  have hdual : ∀ t : Tableau Rat, t.Resumable S cost → t.objective.Minimal →
      Ensures (dualOptimize >>= fun _ => modify fun t => { t with deferred := false }) t
        (fun _ _ => True) fun cause t' => t'.Resumable S cost ∧
          ((∃ n, cause = .iterationLimit n) ∨
            cause = .unsatisfiable ∧ ¬ ∃ v, S v ∧ v.Admissible) := fun t h hminimal =>
    ensures_bind _ |>.mpr (h.ensures_dualOptimize hminimal)
  unfold solve
  rw [ensures_bind]
  rcases h.sign with hfeasible | hminimal
  · exact (h.ensures_optimize hbounded hfeasible).imp (fun _ t' h' => hdual t' h'.1 h'.2)
      fun _ _ h' => ⟨h'.1, .inl h'.2⟩
  · unfold Ensures
    rw [optimize_of_minimal h.epsilon hminimal]
    exact hdual t h hminimal

/-- One of the methods can go on from the tableau, with costs that have a bound. -/
def Leaves (t : Tableau Rat) (S : Assignment Rat → Prop) : Prop :=
  ∃ cost, t.Resumable S cost ∧ Bounded S cost

/-! ## Failed insertions -/

/-- While the equation of a constraint is built, nothing changes but the next index. -/
theorem ensures_createRow_failed (c : Constraint Rat) (w : Strength Rat) (t : Tableau Rat) :
    Ensures (createRow c w) t (fun _ _ => True)
      fun _ t' => ∃ n, t.nextId ≤ n ∧ t' = { t with nextId := n } :=
  ensures_createRow_of (ensures_addMarkers_failed _ _ w t)

theorem ensures_prepareFor_leaves (h : t.Sound True True S cost) (hbounded : Bounded S cost)
    (row : Row Rat) (handle : Handle) :
    Ensures (prepareFor row handle) t (fun _ _ => True) fun _ t' => t'.Leaves S :=
  ensures_prepareFor_of (fun _ => trivial) fun _ _ => (h.resumable.ensures_solve hbounded).imp
    (fun _ _ _ => trivial) fun _ _ h' => ⟨cost, h'.1, hbounded⟩

/-- An equation that is refused, and that asks for no artificial variable, is not left behind. -/
theorem ensures_insertRow_leaves (h : t.Sound True True S cost) (hbounded : Bounded S cost)
    (hrow : row.Encodes t S f) (hmarks : handle.Marks S cost f) (hplain : ¬ handle.Hidden S f) :
    Ensures (insertRow row handle) t (fun _ _ => True) fun _ t' => t'.Leaves S := by
  refine ensures_insertRow_of (((ensures_prepareFor_limit h hbounded hrow).and
    (ensures_prepareFor_leaves h hbounded row handle)).imp (fun _ _ => id) fun _ _ => And.right)
      (fun _ _ _ _ _ => trivial) ?_ (fun _ _ _ _ _ _ => trivial) ?_
  all_goals clear hrow h
  · rintro row t' ⟨⟨h, -⟩, -⟩ - - -
    exact ⟨cost, h.resumable, hbounded⟩
  · rintro row t' ⟨⟨h, hrow, -⟩, -⟩ hsubject hall
    exact absurd ((h.hidden_iff_of_subject?_eq_none hrow hmarks hsubject).mpr hall) hplain

/-- What a failed insertion leaves represents the equations as they were, or those with the new
one. -/
theorem ensures_addConstraint_leaves (h : t.Sound True True S cost)
    (hrowless : ∀ k, k.Rowless → Ignores S k ∧ CostIgnores cost k)
    (hnew : ∀ k, ¬ t.Known k → CostIgnores cost k)
    (hnonneg : ∀ v : Assignment Rat, v.Nonnegative → 0 ≤ cost v)
    {c : Constraint Rat} (hc : c.OverLayout) {w : Strength Rat} (hw : 0 ≤ w.value)
    (hplain : ∀ handle : Handle, handle.Fits c.relation w.isRequired →
      ¬ handle.Hidden S (c.equation handle)) (defer : Bool) :
    Ensures (addConstraint c w defer) t (fun _ _ => True) fun _ t' => t'.Leaves S ∨
      ∃ handle : Handle, (handle.Fits c.relation w.isRequired ∧ handle.Fresh t.nextId) ∧
        t'.Leaves fun v => S v ∧ c.equation handle v = 0 := by
  unfold addConstraint
  rw [ensures_bind]
  refine ((ensures_createRow h hc fun _ => hw).and (ensures_createRow_failed c w t)).imp ?_ ?_
  · rintro ⟨row, handle⟩ t₁ ⟨⟨hfits, hfresh, h₁, hrow⟩, -⟩
    dsimp only at hfits hfresh h₁ hrow ⊢
    have hmarks := h.prepared.represents.marks hnew hc w hfits hfresh
    have hbounded : Bounded S fun v => cost v + handle.price w v := hfits.bounded_price hnonneg hw
    rw [ensures_bind]
    refine ((ensures_insertRow h₁ (fun _ => hbounded) (hfits.plain hc hrowless) hrow hmarks).and
      (ensures_insertRow_leaves h₁ hbounded hrow hmarks (hplain handle hfits))).imp ?_
        fun _ _ hleaves => .inl hleaves.2
    rintro _ t₂ ⟨h₂, -⟩
    have hbounded₂ : Bounded (fun v => S v ∧ c.equation handle v = 0)
        fun v => cost v + handle.price w v := by
      obtain ⟨bound, hbound⟩ := hbounded
      exact ⟨bound, fun v hv => hbound v hv.1⟩
    rw [ensures_bind]
    exact ensures_finish_of (fun _ _ => trivial) fun _ =>
      (h₂.resumable.ensures_solve hbounded₂).imp (fun _ _ _ => trivial)
        fun _ _ h' => .inr ⟨handle, ⟨hfits, hfresh⟩, _, h'.1, hbounded₂⟩
  · rintro cause t' ⟨-, n, hn, rfl⟩
    exact .inl ⟨cost, (h.of_issue hn t.journal).resumable, 0, fun v _ hv => hnonneg v hv⟩

end Tableau

/-! ## Closing a batch after a failure -/

namespace Solver

open Columns (insertAll)

variable {s s' : Solver Rat} {config : Config Rat} {c : Constraint Rat} {w : Strength Rat}
  {cause : SolverError} {cs : List (Constraint Rat × Strength Rat)}

/-- What a failed insertion leaves. Its equations have an admissible solution if the required
constraints could have been met with the new one. -/
theorem Working.ensures_insert_leaves (hs : s.Working config) (hc : c.OverLayout) (hw : 0 ≤ w.value)
    (hplain : ¬ (c.shape w).Hidden s.state.shapes) :
    Ensures (insert c w) s (fun _ _ => True) fun _ s' => s'.batch = s.batch ∧
      ∃ S, s'.state.tableau.Leaves S ∧
        ((∃ v, s.state.Feasible v ∧ (w.isRequired = true → c.Holds v)) →
          ∃ v, S v ∧ v.Admissible) := by
  have hstate := hs.sound.state
  have htidy := hstate.tidy
  have hsound := hstate.tableau.of_noted s.opening_cases
  have hid := s.nextId_opening
  have hadded := Tableau.ensures_addConstraint_leaves hsound
    (fun k hk => hstate.ignores_of_rowless hk)
    (fun k hk => hstate.costIgnores_of_not_known fun hknown =>
      hk fun hinternal => hid ▸ hknown hinternal)
    (hstate.charge_nonneg trivial) hc hw
    (fun handle hfits => mt (htidy.hidden_iff hc hfits).mp hplain) s.isBatching
  refine ensures_insert_of ((ensures_guarded_cases (fun _ => Tableau.keeps_addConstraint c w _)
    hs.rest hadded).imp (fun _ _ _ => trivial) ?_)
  have hold : (∃ v, s.state.Feasible v ∧ (w.isRequired = true → c.Holds v)) →
      ∃ v, s.state.Equations v ∧ v.Admissible := fun ⟨v, hv, _⟩ =>
    ⟨_, htidy.equations_settle hv, htidy.admissible_settle hv⟩
  rintro cause _ ⟨t, hleaves, ⟨n, rfl⟩ | ⟨n, rfl⟩⟩
  · exact ⟨rfl, _, ⟨_, hstate.tableau.resumable, hstate.bounded trivial⟩, hold⟩
  · rcases hleaves with hleaves | ⟨handle, ⟨hfits, hfresh⟩, hleaves⟩
    · exact ⟨rfl, _, hleaves, hold⟩
    · rw [hid] at hfresh
      have hnew := (hstate.get?_of_fresh hfresh).1
      have hbooks := hstate.tidy_register hfits hfresh hc
      refine ⟨rfl, _, hleaves, fun ⟨v, hv⟩ => ?_⟩
      have hv := (htidy.feasible_register hnew).mpr hv
      exact ⟨_, (htidy.equations_register hnew).mp (hbooks.equations_settle hv),
        hbooks.admissible_settle hv⟩

/-- If there are no symbols left for a constraint, its insertion fails for that reason, and leaves
the tableau as it is but for the next index. -/
theorem Working.ensures_insert_of_issue (hs : s.Working config)
    (hissue : Handle.issue c.relation w.isRequired s.state.tableau.nextId = .error cause) :
    Ensures (insert c w) s (fun _ _ => False) fun cause' s' => cause' = cause ∧ s'.batch = s.batch ∧
      ∃ n journal, s.state.tableau.nextId ≤ n ∧
        s'.state.tableau = { s.state.tableau with nextId := n, journal := journal } := by
  have hid := s.nextId_opening
  have hadded : Ensures (Tableau.addConstraint c w s.isBatching) s.opening (fun _ _ => False)
      fun cause' t' => cause' = cause ∧
        ∃ n, s.opening.nextId ≤ n ∧ t' = { s.opening with nextId := n } := by
    rw [← hid] at hissue
    unfold Tableau.addConstraint
    rw [ensures_bind]
    refine ((Tableau.ensures_createRow_issue c w _).and
      (Tableau.ensures_createRow_failed c w _)).imp (fun _ _ h => ?_) fun cause' t' h => ?_
    · cases hissue.symm.trans h.1
    · exact ⟨Except.error.inj (h.1.symm.trans hissue), h.2⟩
  refine ensures_insert_of ((ensures_guarded_cases (fun _ => Tableau.keeps_addConstraint c w _)
    hs.rest hadded).imp (fun _ _ ⟨_, h, _⟩ => h.elim) ?_)
  rintro cause' _ ⟨_, ⟨hcause, n, hn, rfl⟩, ⟨failures, rfl⟩ | ⟨failures, rfl⟩⟩
  · exact ⟨hcause, rfl, _, _, le_rfl, rfl⟩
  · refine ⟨hcause, rfl, n, s.opening.journal, hid ▸ hn, ?_⟩
    dsimp only
    rcases s.opening_cases with heq | heq
    · rw [heq]
    · rw [heq]
      rfl

/-- A batch that ends with a failure is closed, and the failure is told, unless the limit on pivots
is hit or the equations have no admissible solution. -/
theorem told_of_leaves (hopen : s.batch ≠ none) {S : Assignment Rat → Prop}
    (hleaves : s.state.tableau.Leaves S) (cause : SolverError) :
    told (.error cause, s) = .error cause ∨
      (∃ n, told (.error cause, s) = .error (.iterationLimit n)) ∨
      told (.error cause, s) = .error .unsatisfiable ∧ ¬ ∃ v, S v ∧ v.Admissible := by
  obtain ⟨cost, hresumable, hbounded⟩ := hleaves
  have hclose : Ensures (perform .closeBatch) s (fun answer _ => answer = .done)
      fun cause _ => (∃ n, cause = .iterationLimit n) ∨ cause = .unsatisfiable ∧
        ¬ ∃ v, S v ∧ v.Admissible :=
    ensures_bind _ |>.mpr (ensures_closeBatch_of (fun hnone => absurd hnone hopen) fun b _ =>
      (hresumable.ensures_solve hbounded).imp (fun _ _ _ => rfl)
        fun _ _ h => ⟨fun _ _ => h.2, fun _ => h.2⟩)
  rcases hclose.outcome with ⟨_, hanswer, rfl⟩ | ⟨_, hcause, ⟨n, rfl⟩ | ⟨rfl, hnot⟩⟩
  · exact .inl (told_of_ok hanswer)
  · exact .inr (.inl ⟨n, told_of_error hcause⟩)
  · exact .inr (.inr ⟨told_of_error hcause, hnot⟩)

/-- If a batch ends with a constraint for which no symbols are left, this is what is told, provided
that closing the batch does not fail. -/
theorem Working.told_of_issue (hs : s.Working config) (hopen : s.batch ≠ none)
    (hroom : Key.maxIndex + 1 < s.state.tableau.nextId + (c.shape w).symbols)
    (hsolve : ∀ n journal, s.state.tableau.nextId ≤ n → Ensures Tableau.solve
      { s.state.tableau with nextId := n, journal := journal } (fun _ _ => True) fun _ _ => False) :
    ∃ cause s' i, s.step (.insert c w) = (.error cause, s') ∧
      told (.error cause, s') = .error (.indexSpaceExhausted i) := by
  obtain ⟨i, hissue⟩ := Handle.issue_of_lt hroom
  rcases step_insert_of_ensures (hs.ensures_insert_of_issue hissue) with
    ⟨_, -, hfalse⟩ | ⟨_, hcause, rfl, hbatch, n, journal, hn, htableau⟩
  · exact hfalse.elim
  · have hsolved := htableau ▸ hsolve n journal hn
    have hclose : Ensures (perform .closeBatch) (s.step (.insert c w)).2
        (fun answer _ => answer = .done) fun _ _ => False :=
      ensures_bind _ |>.mpr (ensures_closeBatch_of (fun hnone => absurd (hbatch ▸ hnone) hopen)
        fun b _ => hsolved.imp (fun _ _ _ => rfl) fun _ _ => False.elim)
    rcases hclose.outcome with ⟨_, hanswer, rfl⟩ | ⟨_, -, hfalse⟩
    · exact ⟨_, _, i, Prod.ext hcause rfl, told_of_ok hanswer⟩
    · exact hfalse.elim

/-- What is told in the end if there are no symbols left for a constraint. The equations are as
before, so they do not contradict each other. -/
theorem Working.told_of_exhausted (hs : s.Working config) (hopen : s.batch ≠ none)
    (hroom : Key.maxIndex + 1 < s.state.tableau.nextId + (c.shape w).symbols)
    (hstep : s.step (.insert c w) = (.error cause, s')) :
    (∃ n, told (.error cause, s') = .error (.iterationLimit n)) ∨
      ∃ i, told (.error cause, s') = .error (.indexSpaceExhausted i) := by
  obtain ⟨i, hissue⟩ := Handle.issue_of_lt hroom
  obtain ⟨rfl, hbatch, n, journal, hn, htableau⟩ :=
    failed_of_ensures hstep (hs.ensures_insert_of_issue hissue)
  have hstate := hs.sound.state
  have hleaves : s'.state.tableau.Leaves s.state.Equations := by
    rw [htableau]
    exact ⟨_, (hstate.tableau.of_issue hn journal).resumable, hstate.bounded trivial⟩
  rcases told_of_leaves (hbatch.trans_ne hopen) hleaves (.indexSpaceExhausted i) with
    htold | hlimit | ⟨-, hnot⟩
  · exact .inr ⟨i, htold⟩
  · exact .inl hlimit
  · have hfeasible := hstate.feasible_basicSolution trivial trivial
    exact absurd ⟨_, hstate.tidy.equations_settle hfeasible,
      hstate.tidy.admissible_settle hfeasible⟩ hnot

/-- What is told in the end if a constraint fails for which there are symbols: that the limit on
pivots was hit, or that the required constraints contradict each other together with it. -/
theorem Working.told_of_refused (hs : s.Working config) (hopen : s.batch ≠ none)
    (hc : c.OverLayout) (hw : 0 ≤ w.value)
    (hfirst : (c.shape w).fixed = true → ∀ b ∈ s.state.shapes, b.fixed = true)
    (hroom : s.state.tableau.nextId + (c.shape w).symbols ≤ Key.maxIndex + 1)
    (hstep : s.step (.insert c w) = (.error cause, s')) :
    (∃ n, told (.error cause, s') = .error (.iterationLimit n)) ∨
      told (.error cause, s') = .error .unsatisfiable ∧
        ¬ ∃ v, s.state.Feasible v ∧ (w.isRequired = true → c.Holds v) := by
  have hdemand := Shape.demand_of_fixed hfirst
  obtain ⟨hbatch, S, hleaves, hadmissible⟩ :=
    failed_of_ensures hstep (hs.ensures_insert_leaves hc hw (Shape.not_hidden_of_fixed hfirst))
  obtain ⟨h, hreserve⟩ : ∃ h, c.reserve w s.state.Equations s.state.tableau.nextId =
      .ok (h, s.state.tableau.nextId + (c.shape w).symbols) := by
    rcases hs.sound.state.tidy.reserve_cases hc w s.state.tableau.nextId with ⟨-, h⟩ | ⟨hlt, -⟩
    · exact hdemand ▸ h
    · exact absurd hroom (not_le.mpr (hdemand ▸ hlt))
  rcases told_of_leaves (hbatch.trans_ne hopen) hleaves cause with htold | hlimit | ⟨htold, hnot⟩
  · rw [htold]
    rcases failed_of_ensures hstep (ensures_insert_verdict hs.rest hs.sound hc hw) with
      ⟨n, rfl⟩ | hverdict
    · exact .inl ⟨n, rfl⟩
    · by_cases hfeasible : ∃ v, s.state.Feasible v ∧ (w.isRequired = true → c.Holds v)
      · cases (State.verdict_of_exists hreserve hfeasible).symm.trans hverdict
      · injection (State.verdict_of_not_exists hreserve hfeasible).symm.trans hverdict with heq
        exact .inr ⟨heq ▸ rfl, hfeasible⟩
  · exact .inl hlimit
  · exact .inr ⟨htold, mt hadmissible hnot⟩

/-- What is told in the end if a constraint fails: that the limit on pivots was hit, that there are
no symbols left for it, or that the required constraints contradict each other together with it. -/
theorem Working.told_of_failed (hs : s.Working config) (hopen : s.batch ≠ none)
    (hc : c.OverLayout) (hw : 0 ≤ w.value)
    (hfirst : (c.shape w).fixed = true → ∀ b ∈ s.state.shapes, b.fixed = true)
    (hstep : s.step (.insert c w) = (.error cause, s')) :
    (∃ n, told (.error cause, s') = .error (.iterationLimit n)) ∨
      ((∃ i, told (.error cause, s') = .error (.indexSpaceExhausted i)) ∧
        Key.maxIndex + 1 < s.state.tableau.nextId + (c.shape w).symbols) ∨
      told (.error cause, s') = .error .unsatisfiable ∧
        s.state.tableau.nextId + (c.shape w).symbols ≤ Key.maxIndex + 1 ∧
        ¬ ∃ v, s.state.Feasible v ∧ (w.isRequired = true → c.Holds v) := by
  by_cases hroom : s.state.tableau.nextId + (c.shape w).symbols ≤ Key.maxIndex + 1
  · rcases hs.told_of_refused hopen hc hw hfirst hroom hstep with hlimit | ⟨htold, hnot⟩
    · exact .inl hlimit
    · exact .inr (.inr ⟨htold, hroom, hnot⟩)
  · rcases hs.told_of_exhausted hopen (not_le.mp hroom) hstep with hlimit | htold
    · exact .inl hlimit
    · exact .inr (.inl ⟨htold, not_le.mp hroom⟩)

/-- What is told in the end of a list of insertions in which required equalities come first. Either
all of them have been taken in and the batch is closed, or the limit on pivots was hit, or there are
no symbols left for the constraints up to one of them, or the required ones up to there contradict
each other. -/
theorem Working.told_insertAll (hs : s.Working config) (hopen : s.batch ≠ none)
    (hcs : ∀ e ∈ cs, e.1.OverLayout ∧ 0 ≤ e.2.value)
    (hfirst : (s.state.shapes ++ cs.map fun e => e.1.shape e.2).Pairwise
      fun a b => b.fixed = true → a.fixed = true) :
    (∃ s', (insertAll cs).outcome s = (.ok (), s') ∧ s.Takes config cs s' ∧
      told (.ok (), s') = .ok () ∧ Peers config s' (s'.step .closeBatch).2 ∧
      (s'.step .closeBatch).2.batch = none) ∨
    (∃ n, told ((insertAll cs).outcome s) = .error (.iterationLimit n)) ∨
    ∃ before e, before ++ [e] <+: cs ∧
      ((∃ i, told ((insertAll cs).outcome s) = .error (.indexSpaceExhausted i)) ∧
        Key.maxIndex + 1 < s.state.tableau.nextId + symbolCount (before ++ [e]) ∨
      told ((insertAll cs).outcome s) = .error .unsatisfiable ∧
        s.state.tableau.nextId + symbolCount (before ++ [e]) ≤ Key.maxIndex + 1 ∧
        ¬ ∃ v, ∀ e' ∈ s.state.held ++ (before ++ [e]), e'.2.isRequired = true → e'.1.Holds v) := by
  rcases hs.insertAll_cases hcs hfirst with
    ⟨s', hfilled, htakes⟩ | ⟨before, e, after, s₁, cause, s₂, rfl, htakes, hstep, hfilled, -⟩
  · by_cases hlimit : ∃ n, (s'.step .closeBatch).1 = .error (.iterationLimit n)
    · obtain ⟨n, hlimit⟩ := hlimit
      exact .inr (.inl ⟨n, by rw [hfilled, told_of_error hlimit]⟩)
    · obtain ⟨hclosed, hpeers, hbatch⟩ := htakes.working.step_closeBatch
        (htakes.batch.trans_ne hopen) (not_exists.mp hlimit)
      exact .inl ⟨s', hfilled, htakes, told_of_ok hclosed, hpeers, hbatch⟩
  · obtain ⟨hc, hw⟩ := hcs e (by simp)
    have hshapes := htakes.shapes_eq hs
    have hfixed : (e.1.shape e.2).fixed = true → ∀ b ∈ s₁.state.shapes, b.fixed = true := by
      rw [List.map_append, ← List.append_assoc, ← hshapes] at hfirst
      exact fun hfixed b hb =>
        (List.pairwise_append.mp hfirst).2.2 b hb _ List.mem_cons_self hfixed
    have hcount : s₁.state.tableau.nextId + (e.1.shape e.2).symbols =
        s.state.tableau.nextId + symbolCount (before ++ [e]) := by
      rw [htakes.nextId, symbolCount_append, Nat.add_assoc]
      simp [symbolCount]
    have hfeasible : ∀ v, (s₁.state.Feasible v ∧ (e.2.isRequired = true → e.1.Holds v)) ↔
        ∀ e' ∈ s.state.held ++ (before ++ [e]), e'.2.isRequired = true → e'.1.Holds v := by
      intro v
      rw [← List.append_assoc, ← htakes.held, List.forall_mem_append, List.forall_mem_singleton]
      exact Iff.rfl
    rw [hfilled]
    rcases htakes.working.told_of_failed (htakes.batch.trans_ne hopen) hc hw hfixed hstep with
      hlimit | ⟨hindex, hroom⟩ | ⟨hunsat, hroom, hnot⟩
    · exact .inr (.inl hlimit)
    · exact .inr (.inr ⟨before, e, ⟨after, by simp⟩, .inl ⟨hindex, hcount ▸ hroom⟩⟩)
    · exact .inr (.inr ⟨before, e, ⟨after, by simp⟩, .inr ⟨hunsat, hcount ▸ hroom,
        fun h => hnot (h.imp fun v => (hfeasible v).mpr)⟩⟩)

end Solver

end Cassowary
