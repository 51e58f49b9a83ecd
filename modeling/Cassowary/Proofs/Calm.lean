import Cassowary.Proofs.Aftermath

/-!
# Insertions without a pivot

In a batch solving is put off, but an insertion catches up on it if its equation can be installed
only in an optimal tableau. It need not do so if it finds a layout variable that its equation can be
solved for, or an error variable of its own. Then no pivot is made, so the limit on pivots cannot be
hit, and it is known which symbol has become basic.

## Main results

* `Tableau.infeasible_enter` — a row that leaves a tableau feasible queues nothing
* `Tableau.ensures_addConstraint_calm` — an insertion that does not pivot
* `Solver.Working.ensures_insert_calm` — the same, told from the shapes of what is held
-/

namespace Cassowary

open Attempt

namespace Tableau

variable {t : Tableau Rat} {S : Assignment Rat → Prop} {cost f : Assignment Rat → Rat}
  {row : Row Rat} {handle : Handle} {k : Key}

/-! ## The row that enters -/

/-- A row that leaves a tableau feasible queues nothing. -/
theorem infeasible_enter (hqueue : t.infeasible = []) (hepsilon : t.epsilon = 0)
    (hk : t.isBasic k = false) (hfeasible : (t.enter k row).Feasible) :
    (t.enter k row).infeasible = [] := by
  refine (infeasible_enter_of_violates hk fun k' row' hrow' => ?_).trans hqueue
  apply Bool.eq_false_iff.mpr
  intro hviolates
  obtain ⟨hrestricted, hneg⟩ := (violates_iff_of_exact hepsilon).mp hviolates
  exact absurd hneg (not_lt.mpr (hfeasible k' row' hrow' hrestricted))

/-- An equation that is not settled by symbols has a layout variable. -/
theorem Sound.exists_unrestricted (h : t.Sound True True S cost) (hrow : row.Encodes t S f)
    (hloose : ¬ Settles (·.unrestricted = false) S f) :
    ∃ k, k.unrestricted = true ∧ row.coefficientFor k ≠ 0 := by
  rw [hrow.settles_iff h.prepared.represents fun k r hr hk k' hk' =>
    Bool.eq_false_iff.mpr fun hu => hk' (h.prepared.canonical.layered.row hr hk hu)] at hloose
  push Not at hloose
  obtain ⟨k, hk, hu⟩ := hloose
  exact ⟨k, (Bool.not_eq_false _).mp hu, hk⟩

/-- The variable that an equation is solved for is a layout variable, or an error variable of a
constraint that may be violated. -/
theorem Sound.subject?_cases (h : t.Sound True True S cost) (hrow : row.Encodes t S f)
    (hmarks : handle.Marks S cost f) (hloose : handle.other = none → handle.marker.dummy = false →
      ¬ Settles (·.unrestricted = false) S f) {subject : Subject}
    (hsubject : row.subject? handle = some subject) :
    (∃ k, subject = .free k) ∨ ∃ k, subject = .feasible k ∧ handle.other ≠ none := by
  have hr := h.prepared.represents
  have hsuits := Row.subject?_suits hrow.proper hsubject
  -- Beside a lone slack there is a layout variable, and that is solved for first
  have hother : ∀ k, (∀ k, k.unrestricted = true → row.coefficientFor k = 0) →
      k ∈ handle.markers → k.pivotable = true → handle.other ≠ none := by
    intro k hfree hmem hpivotable hnone
    have hmarker : k = handle.marker := (Handle.mem_markers.mp hmem).resolve_right fun hk => by
      rw [hnone] at hk
      cases hk
    obtain ⟨k', hu, hne⟩ := h.exists_unrestricted hrow
      (hloose hnone (Key.dummy_of_pivotable (hmarker ▸ hpivotable)))
    exact hne (hfree k' hu)
  cases subject with
  | free k => exact .inl ⟨k, rfl⟩
  | feasible k =>
    obtain ⟨⟨hmem, hpivotable, -⟩, hfree⟩ := hsuits
    exact .inr ⟨k, rfl, hother k hfree hmem hpivotable⟩
  | infeasible k =>
    obtain ⟨⟨hmem, hpivotable, -⟩, hnonneg, hfree⟩ := hsuits
    exact absurd (hmarks.other_eq_none hrow hr hnonneg) (hother k hfree hmem hpivotable)

/-- If an equation that is not hidden has no variable to be solved for, nothing but dummies is left
of it. -/
theorem Sound.allDummies_of_subject? (h : t.Sound True True S cost) (hrow : row.Encodes t S f)
    (hmarks : handle.Marks S cost f) (hplain : ¬ handle.Hidden S f)
    (hsubject : row.subject? handle = none) :
    handle.marker.dummy = true ∧ row.allDummies = true := by
  refine ⟨(hmarks.dummy_of_subject?_eq_none hrow h.prepared.represents hsubject).1, ?_⟩
  by_contra hall
  exact hplain ((h.hidden_iff_of_subject?_eq_none hrow hmarks hsubject).mpr hall)

/-- What is said of the tableau after a calm insertion: nothing is queued, and a symbol that has
become basic is an error of the new constraint, with a negative coefficient in its equation. -/
structure Calm (t t' : Tableau Rat) (handle : Handle) (row : Row Rat) : Prop where
  queue : t'.infeasible = []
  basic : ∀ k, k.unrestricted = false → k.dummy = false → t'.isBasic k = true →
    t.isBasic k = true ∨
      handle.other ≠ none ∧ k ∈ handle.markers ∧ row.coefficientFor k < 0

/-- An equation is installed without solving before, if it is not hidden, and unless it belongs to a
required inequality and has no layout variable. -/
theorem ensures_insertRow_calm (h : t.Sound True True S cost) (hrow : row.Encodes t S f)
    (hmarks : handle.Marks S cost f) (hplain : ¬ handle.Hidden S f)
    (hloose : handle.other = none → handle.marker.dummy = false →
      ¬ Settles (·.unrestricted = false) S f) :
    Ensures (insertRow row handle) t (fun _ t' => Calm t t' handle row)
      fun cause _ => ∀ n, cause ≠ .iterationLimit n := by
  have hr := h.prepared.represents
  have hprepare : Ensures (prepareFor row handle) t (fun row' t' => row' = row ∧ t' = t)
      fun _ _ => False := by
    have hneeds : t.needsRepair row (row.subject? handle) = false := by
      cases hsubject : row.subject? handle with
      | none =>
        exact congrArg Bool.not (h.allDummies_of_subject? hrow hmarks hplain hsubject).2
      | some subject =>
        rcases h.subject?_cases hrow hmarks hloose hsubject with ⟨k, rfl⟩ | ⟨k, rfl, -⟩ <;> rfl
    refine ensures_prepareFor_of (fun _ => ⟨rfl, rfl⟩) fun _ hcatch => ?_
    rcases hcatch with hqueue | hrepair
    · exact absurd h.queue hqueue
    · cases hneeds.symm.trans hrepair
  have hinstall : ∀ k, row.coefficientFor k ≠ 0 → (t.install row k).Feasible →
      (k.unrestricted = false → k.dummy = false →
        handle.other ≠ none ∧ k ∈ handle.markers ∧ row.coefficientFor k < 0) →
      Calm t (t.install row k) handle row := by
    intro k hk hfeasible hkind
    have hbasic : t.isBasic k = false := Bool.eq_false_iff.mpr fun hb =>
      hk (hrow.over_tableau.coefficientFor_basic hrow.proper hb)
    refine ⟨infeasible_enter h.queue (h.prepared.epsilon trivial) hbasic hfeasible,
      fun k' hrestricted hdummy hb => ?_⟩
    rcases isBasic_enter_iff.mp hb with rfl | hb
    · exact .inr (hkind hrestricted hdummy)
    · exact .inl hb
  refine ensures_insertRow_of (hprepare.imp (fun _ _ => id) fun _ _ => False.elim) ?_
    (fun _ _ _ _ _ _ _ => nofun) ?_ ?_
  · rintro _ _ subject ⟨rfl, rfl⟩ hsubject
    have hsuits := Row.subject?_suits hrow.proper hsubject
    rcases h.subject?_cases hrow hmarks hloose hsubject with ⟨k, rfl⟩ | ⟨k, rfl, hother⟩
    · refine hinstall k hsuits.2 (h.feasible_install_free trivial hsuits.1) fun hrestricted => ?_
      cases hsuits.1.symm.trans hrestricted
    · exact hinstall k hsuits.1.2.2.ne (h.feasible_install_feasible trivial hrow hmarks hsuits)
        fun _ _ => ⟨hother, hsuits.1.1, hsuits.1.2.2⟩
  · rintro _ _ ⟨rfl, rfl⟩ hsubject - hconstant
    have hdummy := (h.allDummies_of_subject? hrow hmarks hplain hsubject).1
    rw [Scalar.magnitude_rat, h.prepared.epsilon trivial, not_lt] at hconstant
    refine hinstall _ (hmarks.coefficientFor_marker_ne_zero hrow hr)
      (h.feasible_install_redundant trivial hrow hmarks (abs_nonpos_iff.mp hconstant))
      fun _ hnot => ?_
    cases hdummy.symm.trans hnot
  · rintro _ _ ⟨rfl, rfl⟩ hsubject hall
    exact absurd (h.allDummies_of_subject? hrow hmarks hplain hsubject).2 hall

/-! ## The whole insertion -/

/-- The equation of a constraint that is not negative where the tableau is keeps its sign. -/
theorem ensures_createRow_unturned (h : t.Sound True True S cost) {c : Constraint Rat}
    (hc : c.OverLayout) (w : Strength Rat) :
    Ensures (createRow c w) t
      (fun r _ => 0 ≤ c.value t.basicSolution → ∀ v, S v → r.1.evaluate v = c.equation r.2 v)
      fun _ _ => True := by
  have hr := h.prepared.represents
  refine ensures_createRow_of ((ensures_addMarkers _ _ w t).imp ?_ fun _ _ _ => trivial)
  rintro ⟨row, handle⟩ t' ⟨hrow, hfits, hfresh, hlt, journal, ht'⟩
  dsimp only at hrow hfits hfresh hlt ht' ⊢
  intro hvalue v hv
  have hid : t.nextId ≤ t'.nextId :=
    (hfresh.le _ List.mem_cons_self).trans (hlt _ List.mem_cons_self).le
  have hr' := (h.prepared.insertPrices hid ht' (fun _ => hfits.unrestricted) hfresh hlt).represents
  have hproper : row.Proper := hrow ▸ ((Row.proper_ofConstant _).insertAll _).insertAll _
  have hover : (t'.substituteBasics row).Over t' :=
    hr'.separated.substituteBasics fun k hk =>
      known_of_mem_equation hc (fun k hk _ => hlt k hk) (hrow ▸ hk)
  have hsame : t'.basicSolution = t.basicSolution := by rw [ht']; rfl
  have hvalues : ∀ v, S v → (t'.substituteBasics row).Proper ∧
      (t'.substituteBasics row).evaluate v = c.equation handle v := fun v hv => by
    obtain ⟨hproper', heq⟩ := hr'.evaluate_substituteBasics hproper hv
    exact ⟨hproper', by rw [heq, hrow, evaluate_equation]⟩
  have hzero : ∀ k ∈ handle.markers, t.basicSolution k = 0 := fun k hk =>
    complete_of_isBasic_eq_false (Bool.eq_false_iff.mpr fun hb => absurd
      (hr.separated.known hb (hfresh.internal k hk)) (not_lt.mpr (hfresh.le k hk))) _
  have hconstant : 0 ≤ (t'.substituteBasics row).constant := by
    obtain ⟨hproper', heq⟩ := hvalues _ (hr'.solves_complete fun _ => 0)
    rw [evaluate_complete hover hproper', Row.evaluate_zero] at heq
    have hother : handle.other.elim 0 t.basicSolution = 0 := by
      cases hk : handle.other with
      | none => rfl
      | some k => exact hzero k (Handle.mem_markers.mpr (.inr hk))
    rw [heq, ← basicSolution, hsame, Constraint.equation, hzero _ List.mem_cons_self, hother]
    linarith
  rw [Row.normalize_of_nonneg hconstant]
  exact (hvalues v hv).2

/-- A constraint is taken in without a pivot, if its equation is not hidden, if that has a layout
variable in the case of a required inequality, and if its value is not negative where the tableau is
in the case of a constraint that may be violated. The only symbol that may become basic is then the
error for what is too much. -/
theorem ensures_addConstraint_calm (h : t.Sound True True S cost)
    (hnew : ∀ k, ¬ t.Known k → CostIgnores cost k) {c : Constraint Rat} (hc : c.OverLayout)
    {w : Strength Rat} (hw : 0 ≤ w.value)
    (hplain : ∀ handle : Handle, handle.Fits c.relation w.isRequired →
      ¬ handle.Hidden S (c.equation handle))
    (hloose : w.isRequired = true → (c.shape w).fixed = false → ∀ handle : Handle,
      handle.Fits c.relation w.isRequired →
        ¬ Settles (·.unrestricted = false) S (c.equation handle))
    (hvalue : w.isRequired = false → 0 ≤ c.value t.basicSolution) :
    Ensures (addConstraint c w true) t
      (fun handle t' => ∀ k, k.unrestricted = false → k.dummy = false → t'.isBasic k = true →
        t.isBasic k = true ∨ handle.other = some k)
      fun cause _ => ∀ n, cause ≠ .iterationLimit n := by
  unfold addConstraint
  rw [ensures_bind]
  refine (((ensures_createRow h hc fun _ => hw).and (ensures_createRow_rows c w t)).and
    (ensures_createRow_unturned h hc w)).imp ?_ fun cause _ ⟨⟨⟨i, hcause⟩, _⟩, _⟩ n hlimit => by
      cases hcause.symm.trans hlimit
  rintro ⟨row, handle⟩ t₁ ⟨⟨⟨hfits, hfresh, h₁, hrow⟩, hrows, -⟩, hunturned⟩
  dsimp only at hfits hfresh h₁ hrow hunturned ⊢
  have hmarks := h.prepared.represents.marks hnew hc w hfits hfresh
  have hloose' : handle.other = none → handle.marker.dummy = false →
      ¬ Settles (·.unrestricted = false) S (c.equation handle) := fun hother hdummy =>
    hloose (hfits.required_of_other hother) (Bool.eq_false_iff.mpr fun hfixed =>
      Bool.eq_false_iff.mp hdummy (hfits.dummy_iff.mpr hfixed)) handle hfits
  rw [ensures_bind]
  refine (ensures_insertRow_calm h₁ hrow hmarks (hplain handle hfits) hloose').imp ?_
    fun _ _ => id
  rintro _ t₂ ⟨hqueue, hbasic⟩
  rw [ensures_bind]
  refine ensures_finish_of (fun _ _ => ?_) fun hnot => absurd ⟨rfl, hqueue⟩ hnot
  rw [ensures_pure]
  intro k hrestricted hdummy hb
  rcases hbasic k hrestricted hdummy hb with hold | ⟨hother, hmem, hneg⟩
  · rw [isBasic, hrows] at hold
    exact .inl hold
  · refine .inr ((Handle.mem_markers.mp hmem).resolve_left fun hmarker => ?_)
    have hsoft : w.isRequired = false := Bool.eq_false_iff.mpr fun hrequired => by
      rw [hrequired] at hfits
      exact hother hfits.other_eq_none
    have hone := Row.coefficientFor_of_evaluate_eq h₁.prepared.represents
      (hunturned (hvalue hsoft)) (hmarks.ignores k hmem) (hmarker ▸ hmarks.marker)
    rw [hone] at hneg
    norm_num at hneg

end Tableau

namespace Solver

variable {s s' : Solver Rat} {config : Config Rat} {c : Constraint Rat} {w : Strength Rat} {h : Handle}

/-- What makes an insertion calm: the equation of the constraint is not hidden, the values of what
is held do not settle that of a required inequality, and a constraint that may be violated is not
below zero where the tableau is. -/
structure Admits (s : Solver Rat) (c : Constraint Rat) (w : Strength Rat) : Prop where
  plain : ¬ (c.shape w).Hidden s.state.shapes
  loose : w.isRequired = true → (c.shape w).fixed = false → ¬ (c.shape w).Follows s.state.shapes
  value : w.isRequired = false → 0 ≤ c.value s.state.tableau.basicSolution

/-- In a batch, a constraint that is admitted is inserted without a pivot: the limit is not hit, and
no symbol becomes basic but the error for what is too much. -/
theorem Working.ensures_insert_calm (hs : s.Working config) (hopen : s.batch ≠ none)
    (hc : c.OverLayout) (hw : 0 ≤ w.value) (hadmits : s.Admits c w) :
    Ensures (insert c w) s
      (fun h s' => ∀ k, k.unrestricted = false → k.dummy = false →
        s'.state.tableau.isBasic k = true → s.state.tableau.isBasic k = true ∨ h.other = some k)
      fun cause _ => ∀ n, cause ≠ .iterationLimit n := by
  have hstate := hs.sound.state
  have hid := s.nextId_opening
  have hrows := s.rows_opening
  have hbatching : s.isBatching = true := Option.isSome_iff_ne_none.mpr hopen
  have hadded := Tableau.ensures_addConstraint_calm (hstate.tableau.of_noted s.opening_cases)
    (fun k hk => hstate.costIgnores_of_not_known fun hknown =>
      hk fun hinternal => hid ▸ hknown hinternal) hc hw
    (fun handle hfits => mt (hstate.tidy.hidden_iff hc hfits).mp hadmits.plain)
    (fun hrequired hfixed handle hfits => by
      have hother : handle.other = none := by
        rw [hrequired] at hfits
        exact hfits.other_eq_none
      exact mt (hstate.tidy.settles_iff hc hfits hother).mp (hadmits.loose hrequired hfixed))
    (fun hsoft => by
      have hsame : s.opening.basicSolution = s.state.tableau.basicSolution := by
        unfold Tableau.basicSolution Tableau.complete
        rw [hrows]
      exact hsame ▸ hadmits.value hsoft)
  refine ensures_insert_of ?_
  rw [hbatching]
  refine (ensures_guarded_cases (fun _ => Tableau.keeps_addConstraint c w _) hs.rest hadded).imp ?_
    fun _ _ ⟨_, h, _⟩ => h
  rintro h _ ⟨t, hbasic, rfl⟩
  intro k hrestricted hdummy hb
  have hcases := hbasic k hrestricted hdummy hb
  rwa [Tableau.isBasic, hrows] at hcases

/-- What a solver gains by a calm insertion: an equation and what its symbols cost, with the next
symbols that there are, and no symbol has become basic but the error for what is too much. -/
structure Gains (s : Solver Rat) (c : Constraint Rat) (w : Strength Rat) (h : Handle)
    (s' : Solver Rat) : Prop where
  fits : h.Fits c.relation w.isRequired
  issue : Handle.issue c.relation w.isRequired s.state.tableau.nextId =
    .ok (h, s'.state.tableau.nextId)
  equations_iff : ∀ v, s'.state.Equations v ↔ s.state.Equations v ∧ c.equation h v = 0
  charge_eq : ∀ v, s'.state.charge v = s.state.charge v + h.price w v
  basic : ∀ k, k.unrestricted = false → k.dummy = false → s'.state.tableau.isBasic k = true →
    s.state.tableau.isBasic k = true ∨ h.other = some k

/-- A calm insertion succeeds if there are symbols enough and the required constraints can be
met. -/
theorem Working.step_insert_calm (hs : s.Working config) (hopen : s.batch ≠ none)
    (hc : c.OverLayout) (hw : 0 ≤ w.value) (hadmits : s.Admits c w)
    (hroom : s.state.tableau.nextId + (c.shape w).symbols ≤ Key.maxIndex + 1)
    (hmet : ∃ v, s.state.Feasible v ∧ (w.isRequired = true → c.Holds v)) :
    ∃ h s', s.step (.insert c w) = (.ok (.inserted h), s') ∧ s.Takes config [(c, w)] s' ∧
      s.Gains c w h s' := by
  have htidy := hs.sound.state.tidy
  have hcalm := step_insert_of_ensures (hs.ensures_insert_calm hopen hc hw hadmits)
  have hdemand : Shape.demand s.state.shapes (c.shape w) = (c.shape w).symbols := by
    rw [Shape.demand, if_neg hadmits.plain, Nat.add_zero]
  obtain ⟨h, hissue, hfits⟩ := Handle.issue_of_le hroom
  have hreserve : c.reserve w s.state.Equations s.state.tableau.nextId =
      .ok (h, s.state.tableau.nextId + (c.shape w).symbols) := by
    rw [Constraint.reserve_of_issue hissue, Tableau.spend,
      if_neg (mt (htidy.hidden_iff hc hfits).mp hadmits.plain)]
    rfl
  have hverdict := State.verdict_of_exists hreserve hmet
  rcases hs.takes_or hc hw hdemand with ⟨h', s', hstep, htakes⟩ | ⟨cause, s', hstep, hwhy⟩
  · rcases hs.step_insert_cases hc hw with
      ⟨h'', hanswer, -, -, hverdict', hnew, t, ht⟩ | ⟨cause, hcause, -⟩
    · obtain ⟨heq, hid⟩ := Prod.ext_iff.mp (Except.ok.inj (hverdict.symm.trans hverdict'))
      dsimp only at heq hid
      subst heq
      rw [hid] at hissue
      rw [hstep] at hcalm hanswer hissue ht
      cases hanswer
      have hbooks : ({ s.state with tableau := t } : State Rat).Tidy := htidy.of_eq rfl rfl
      refine ⟨h, s', hstep, htakes, hfits, hissue, fun v => ?_, fun v => ?_, ?_⟩
      · rw [ht]
        exact (hbooks.equations_register hnew).trans
          (and_congr_left' (State.equations_of_eq rfl rfl v))
      · rw [ht]
        exact State.charge_register hnew
      · rcases hcalm with ⟨_, hanswer, hbasic⟩ | ⟨_, hcause, -⟩
        · cases hanswer
          exact hbasic
        · cases hcause
    · rw [hstep] at hcause
      cases hcause
  · rw [hstep] at hcalm
    rcases hwhy with ⟨n, rfl⟩ | hverdict'
    · rcases hcalm with ⟨_, hanswer, -⟩ | ⟨_, hcause, hlimit⟩
      · cases hanswer
      · cases hcause
        exact absurd rfl (hlimit n)
    · cases hverdict.symm.trans hverdict'

end Solver

end Cassowary
