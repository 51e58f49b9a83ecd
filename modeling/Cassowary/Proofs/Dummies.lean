import Cassowary.Proofs.Oversight
import Cassowary.Proofs.Soundness

/-!
# Dummies that stay at zero

The dummy of a required equality is zero in every solution and only marks the equality. It comes
into the basis in two ways: with an equality that follows from others, whose row has nothing but
dummies, and when a marker goes and takes the place of a row. As long as every basic dummy is idle,
an equation whose artificial variable has been driven to zero is never refused: on all solutions the
artificial variable moves with the layout variables and slacks of its equation while the dummies
stay where they are, so its row has a variable that may take its place.

Idle dummies stay idle through pivots, insertions and moved targets. A removal keeps them idle if
and only if the marker that goes stands in no row of a dummy, or takes the place of a dummy. It does
not always: a slack that moves with the marker may have to give way, and then it comes into the rows
of the dummies that the marker stood in.

## Main definitions

* `Tableau.Still` — a tableau whose dummies are idle
* `Tableau.Retirable` — an artificial variable that can leave the basis
* `Tableau.Shields`, `Solver.Shielding` — markers that go without a trace in the rows of dummies

## Main results

* `Tableau.DummiesIdle.dropMarker_iff` — which removals keep the dummies idle
* `Tableau.Ready.ensures_driveArtificial` — a variable may take the place of an artificial one
* `Solver.still_step` — one operation
* `Solver.run_still` — whole runs, and the insertions that may come after them
-/

namespace Cassowary

open Attempt

theorem Subject.Suits.key {row : Row Rat} {h : Handle} {subject : Subject}
    (hsuits : subject.Suits row h) :
    row.coefficientFor subject.key ≠ 0 ∧ ¬ subject.key.dummy = true := by
  have hpivotable : ∀ {k : Key}, k.pivotable = true → ¬ k.dummy = true := fun hk =>
    Bool.eq_false_iff.mp (Key.dummy_of_pivotable hk)
  cases subject with
  | free k =>
    refine ⟨hsuits.2, fun hdummy => ?_⟩
    exact absurd (hsuits.1.symm.trans (Key.unrestricted_of_dummy hdummy)) nofun
  | feasible k => exact ⟨hsuits.1.2.2.ne, hpivotable hsuits.1.2.1⟩
  | infeasible k => exact ⟨hsuits.1.2.2.ne', hpivotable hsuits.1.2.1⟩

namespace Tableau

variable {t t' : Tableau Rat} {S S' : Assignment Rat → Prop} {cost cost' f : Assignment Rat → Rat}
  {row : Row Rat} {k a entering leaving marker minus : Key} {handle : Handle} {delta : Rat}
  {c : Constraint Rat} {w : Strength Rat} {D : Key → Prop}

/-! ## The methods -/

/-- What may enter the basis is no dummy, let alone one of some dummies. -/
theorem not_of_pivotable (hdummy : ∀ k, D k → k.dummy = true) (hk : k.pivotable = true) : ¬ D k :=
  fun hidle => Bool.eq_false_iff.mp (Key.dummy_of_pivotable hk) (hdummy k hidle)

/-- Only variables that may be other than zero enter, so a dummy keeps its row or leaves. -/
theorem enduring_idle (hdummy : ∀ k, D k → k.dummy = true) :
    Enduring fun t => t.Canonical S cost ∧ t.Idle D where
  of_eq h hrows hobjective hartificial hid hqueue :=
    ⟨h.1.of_eq hrows hobjective hartificial hid hqueue, h.2.of_eq hrows⟩
  queue h := h.1.queue
  pivot h hrow hcoefficient hentering hleaving :=
    ⟨h.1.pivot hrow hcoefficient hleaving,
      h.2.pivot h.1.represents hrow (not_of_pivotable hdummy hentering)⟩

/-- A tableau that represents something, with dummies that are idle. -/
structure Still (t : Tableau Rat) (S : Assignment Rat → Prop) (cost : Assignment Rat → Rat) :
    Prop where
  canonical : t.Canonical S cost
  idle : t.DummiesIdle

theorem enduring_still : Enduring (Still · S cost) where
  of_eq h hrows hobjective hartificial hid hqueue :=
    ⟨h.canonical.of_eq hrows hobjective hartificial hid hqueue, h.idle.of_eq hrows⟩
  queue h := h.canonical.queue
  pivot h hrow hcoefficient hentering hleaving :=
    ⟨h.canonical.pivot hrow hcoefficient hleaving,
      h.idle.pivot h.canonical.represents hrow hentering⟩

/-! ## Artificial variables -/

/-- What holds with an equation behind an artificial variable still holds when that variable has
been made as small as possible. -/
theorem ensures_driveArtificial_of {P : Key → Tableau Rat → Prop} (hP : ∀ a, Enduring (P a))
    (hbehind : ∀ a : Key, a.kind = .artificial → a.index.toNat = t.nextId →
      P a (Tableau.behind { t with nextId := t.nextId + 1 } a row)) :
    Ensures (driveArtificial row) t
      (fun a t' => (a.kind = .artificial ∧ a.index.toNat = t.nextId) ∧ P a t') fun _ _ => True := by
  refine ensures_bind _ |>.mpr ((ensures_newSymbol .artificial t).imp ?_ fun _ _ _ => trivial)
  rintro a t₁ ⟨⟨hkind, hindex⟩, rfl⟩
  rw [ensures_bind, ensures_modify, ensures_bind]
  refine ((hP a).minimizeArtificial _ (hbehind a hkind hindex)).imp (fun residual t₂ h₂ => ?_)
    fun _ _ _ => trivial
  rw [ensures_bind, ensures_get]
  split
  · trivial
  · exact ⟨⟨hkind, hindex⟩, h₂⟩

/-- A new artificial variable is not in an equation, and its equation can be installed behind it. -/
theorem Canonical.behind_artificial (h : t.Canonical S cost) (hrow : row.Over t)
    (hproper : row.Proper) (hfree : ∀ k, k.unrestricted = true → row.coefficientFor k = 0)
    (hkind : a.kind = .artificial) (hindex : a.index.toNat = t.nextId) (hignores : Ignores S a)
    (hcost : CostIgnores cost a) :
    row.contains a = false ∧ Canonical (Tableau.behind { t with nextId := t.nextId + 1 } a row)
      (fun v => S v ∧ v a = row.evaluate v) cost := by
  have hcontains : row.contains a = false := Bool.eq_false_iff.mpr fun hcontains => by
    have hlt := hrow.known hcontains (by simp [Key.internal, hkind, Kind.internal])
    omega
  have h₁ : Canonical { t with nextId := t.nextId + 1 } S cost :=
    h.of_eq rfl rfl (.inl rfl) (Nat.le_succ _) fun _ => id
  exact ⟨hcontains, h₁.represents.behind (hrow.mono (fun _ => id) (Nat.le_succ _)) hproper
    (fun _ => hindex ▸ Nat.lt_succ_self _) hignores hcost hcontains, h₁.layered.behind hfree,
    h₁.queue⟩

/-- Where an artificial variable is still basic, it is zero, and a variable may take its place. -/
def Retirable (t : Tableau Rat) (a : Key) : Prop :=
  ∀ row, t.rows.get? a = some row → row.constant = 0 ∧ ∃ k, row.anyPivotable = some k

/-- A variable that may retire leaves the basis without a failure. -/
theorem Retirable.exists_eq_ok (h : t.Retirable a) : ∃ t', retireArtificial a t = .ok () t' := by
  have hensures : Ensures (retireArtificial a) t (fun _ _ => True) fun _ _ => False :=
    ensures_retireArtificial_of (fun _ => trivial) (fun _ _ _ => trivial)
      (fun row hrow hnone => by
        obtain ⟨-, k, hk⟩ := h row hrow
        cases hnone.symm.trans hk)
      fun _ _ _ _ => trivial
  unfold Ensures at hensures
  cases hresult : retireArtificial a t with
  | ok _ t' => exact ⟨t', rfl⟩
  | error cause t' =>
    rw [hresult] at hensures
    exact hensures.elim

theorem Idle.replace (h : t.Idle D) (hr : t.Represents S cost) (hrow : t.rows.get? a = some row)
    (hentering : ¬ D entering) : (t.replace a entering row).Idle D := by
  have hpivot := h.pivot hr hrow hentering
  obtain ⟨queue, pivots, heq, -⟩ := pivot_eq_replace hrow entering
  rw [heq] at hpivot
  exact hpivot.of_eq rfl

theorem ensures_retireArtificial_idle (h : t.Canonical S cost) (hidle : t.Idle D)
    (hdummy : ∀ k, D k → k.dummy = true) :
    Ensures (retireArtificial a) t (fun _ t' => t'.Idle D) fun _ _ => True :=
  ensures_retireArtificial_of (fun _ => hidle) (fun _ _ _ => hidle.eraseRow a)
    (fun _ _ _ => trivial) fun _ _ hrow hentering => hidle.replace h.represents hrow
      (not_of_pivotable hdummy (Row.anyPivotable_eq_some hentering).1)

/-! ## Insertions -/

/-- A tableau, and an equation that is about to be installed in it. -/
structure Ready (t : Tableau Rat) (row : Row Rat) (handle : Handle) (S : Assignment Rat → Prop)
    (cost f : Assignment Rat → Rat) : Prop where
  sound : t.Sound False False S cost
  idle : t.DummiesIdle
  epsilon : t.epsilon = 0
  encodes : row.Encodes t S f
  marks : handle.Marks S cost f
  plain : ∀ k : Key, k.Rowless → Ignores S k ∧ CostIgnores cost k ∧ Slope f k 0

namespace Ready

theorem still (h : t.Ready row handle S cost f) : t.Still S cost :=
  ⟨h.sound.prepared.canonical, h.idle⟩

/-- Catching up on what was put off leaves an equation ready to be installed. -/
theorem ensures_prepareFor (h : t.Ready row handle S cost f) :
    Ensures (prepareFor row handle) t (fun row' t' => t'.Ready row' handle S cost f)
      fun _ _ => True := by
  refine ((Tableau.ensures_prepareFor h.sound False.elim h.encodes).and
    ((enduring_still.prepareFor row handle t h.still).and
      ((stable_epsilon 0).prepareFor row handle t h.epsilon))).imp ?_ fun _ _ _ => trivial
  rintro row' t' ⟨⟨hsound, hrow, -⟩, hstill', hepsilon⟩
  exact ⟨hsound, hstill'.idle, hepsilon, hrow, h.marks, h.plain⟩

/-- An artificial variable that has been driven to zero can leave the basis. -/
theorem ensures_driveArtificial (h : t.Ready row handle S cost f)
    (hsubject : row.subject? handle = none) (hdummies : ¬ row.allDummies = true) :
    Ensures (driveArtificial row) t (fun a t' => (∃ S cost, t'.Still S cost) ∧ t'.Retirable a)
      fun _ _ => True := by
  have hr := h.sound.prepared.represents
  have hrow := h.encodes
  obtain ⟨-, hfree⟩ := Row.subject?_eq_none hrow.proper hsubject
  obtain ⟨p, hp, hpcoefficient⟩ := hrow.exists_pivotable hr
    (fun k hk => ⟨(h.plain k hk).1, (h.plain k hk).2.2⟩) hfree
    fun hall => hdummies ((Row.allDummies_iff hrow.proper).mpr hall)
  have hbehind : ∀ a : Key, a.kind = .artificial → a.index.toNat = t.nextId →
      row.contains a = false ∧ Still (Tableau.behind { t with nextId := t.nextId + 1 } a row)
        (fun v => S v ∧ v a = row.evaluate v) cost := fun a hkind hindex => by
    have ha := rowless_of_artificial hkind
    obtain ⟨hcontains, hbehind⟩ := h.still.canonical.behind_artificial hrow.over_tableau hrow.proper
      hfree hkind hindex (h.plain a ha).1 (h.plain a ha).2.1
    exact ⟨hcontains, hbehind, DummiesIdle.behind h.idle ha.dummy⟩
  refine ((ensures_driveArtificial_of
    (P := fun a t' => t'.Still (fun v => S v ∧ v a = row.evaluate v) cost)
    (fun _ => enduring_still) fun a hkind hindex => (hbehind a hkind hindex).2).and
      (ensures_driveArtificial_remainder row t)).imp ?_ fun _ _ _ => trivial
  rintro a t' ⟨⟨⟨hkind, hindex⟩, h'⟩, -, hsmall⟩
  have ha := rowless_of_artificial hkind
  have hignores := (h.plain a ha).1
  have hcontains := (hbehind a hkind hindex).1
  refine ⟨⟨_, _, h'⟩, fun row' hrow' => ⟨?_, ?_⟩⟩
  · have hconstant := hsmall row' hrow'
    rw [h.epsilon, Scalar.magnitude_rat, not_lt] at hconstant
    exact abs_nonpos_iff.mp hconstant
  · exact h'.canonical.represents.exists_anyPivotable h'.canonical.layered hrow' ha
      (hr.exists_moved_pivotable h.idle (fun k hk => (h.plain k hk).1) hrow.over_tableau hrow.proper
        hignores hcontains hp hpcoefficient)

/-- Whichever way an equation is installed, what was idle of the dummies is idle after it. The
equation of a dummy among them has to be one of such dummies. -/
theorem ensures_insertRow_idle (h : t.Ready row handle S cost f) (hidle : t.Idle D)
    (hdummy : ∀ k, D k → k.dummy = true)
    (hmarker : D handle.marker → ∀ k, k.dummy = true → D k) :
    Ensures (insertRow row handle) t (fun _ t' => t'.Idle D) fun _ _ => True := by
  refine ensures_insertRow_of ((h.ensures_prepareFor.and ((enduring_idle hdummy).prepareFor row
    handle t ⟨h.still.canonical, hidle⟩)).imp (fun _ _ => id) fun _ _ _ => trivial) ?_
      (fun _ _ _ _ _ _ => trivial) ?_ ?_
  all_goals clear h hidle
  · rintro row t subject ⟨h, -, hidle⟩ hsubject
    obtain ⟨hcoefficient, hkey⟩ := (Row.subject?_suits h.encodes.proper hsubject).key
    exact hidle.install (fun _ _ => h.sound.prepared.represents.proper_row) hcoefficient fun hk =>
      absurd (hdummy _ hk) hkey
  · rintro row t ⟨h, -, hidle⟩ - hdummies hconstant
    have hr := h.sound.prepared.represents
    -- What follows from other equalities is kept in a row of dummies without a constant
    rw [h.epsilon, Scalar.magnitude_rat, not_lt] at hconstant
    exact hidle.install (fun _ _ => hr.proper_row)
      (h.marks.coefficientFor_marker_ne_zero h.encodes hr) fun hk =>
        ⟨abs_nonpos_iff.mp hconstant, fun k hne =>
          hmarker hk k ((Row.allDummies_iff h.encodes.proper).mp hdummies k hne)⟩
  · rintro row t ⟨h, -, hidle⟩ hsubject -
    obtain ⟨-, hfree⟩ := Row.subject?_eq_none h.encodes.proper hsubject
    rw [addWithArtificial_eq, ensures_bind]
    refine (ensures_driveArtificial_of
      (P := fun a t' => t'.Canonical (fun v => S v ∧ v a = row.evaluate v) cost ∧ t'.Idle D)
      (fun _ => enduring_idle hdummy) fun a hkind hindex => ?_).imp ?_ fun _ _ _ => trivial
    · have ha := rowless_of_artificial hkind
      refine ⟨(h.still.canonical.behind_artificial h.encodes.over_tableau h.encodes.proper hfree
        hkind hindex (h.plain a ha).1 (h.plain a ha).2.1).2, Idle.behind hidle fun hk => ?_⟩
      exact absurd (ha.dummy.symm.trans (hdummy a hk)) nofun
    · rintro a t' ⟨-, hcanonical, hidle⟩
      refine ensures_bind _ |>.mpr ((ensures_retireArtificial_idle hcanonical hidle hdummy).imp
        (fun _ t'' h'' => ?_) fun _ _ _ => trivial)
      rw [ensures_modify]
      exact h''.dropColumn a

end Ready

/-- A tableau that constraints may come to. -/
structure Awaits (t : Tableau Rat) (S : Assignment Rat → Prop) (cost : Assignment Rat → Rat) :
    Prop where
  sound : t.Sound False False S cost
  idle : t.DummiesIdle
  epsilon : t.epsilon = 0
  plain : ∀ k : Key, k.Rowless → Ignores S k ∧ CostIgnores cost k
  unknown : ∀ k, ¬ t.Known k → CostIgnores cost k

namespace Awaits

theorem ensures_createRow (h : t.Awaits S cost) (hc : c.OverLayout) (w : Strength Rat) :
    Ensures (createRow c w) t (fun r t' => t'.Ready r.1 r.2 S (fun v => cost v + r.2.price w v)
      (c.equation r.2)) fun _ _ => True := by
  refine ((Tableau.ensures_createRow h.sound hc False.elim).and
    (ensures_createRow_rows c w t)).imp ?_ fun _ _ _ => trivial
  rintro ⟨row, handle⟩ t' ⟨⟨hfits, hfresh, hsound, hrow⟩, hrows, -, hepsilon⟩
  exact ⟨hsound, h.idle.of_eq hrows, hepsilon.trans h.epsilon, hrow,
    h.sound.prepared.represents.marks h.unknown hc w hfits hfresh, hfits.plain hc h.plain⟩

theorem ensures_addConstraint (h : t.Awaits S cost) (hc : c.OverLayout) (w : Strength Rat)
    (defer : Bool) : Ensures (addConstraint c w defer) t (fun _ t' => ∃ S cost, t'.Still S cost)
      fun _ _ => True := by
  refine ensures_bind _ |>.mpr ((h.ensures_createRow hc w).imp ?_ fun _ _ _ => trivial)
  rintro ⟨row, handle⟩ t₁ h₁
  refine ensures_bind _ |>.mpr (((ensures_insertRow h₁.sound False.elim h₁.plain h₁.encodes
    h₁.marks).and (h₁.ensures_insertRow_idle h₁.idle (fun _ => id) fun _ _ => id)).imp ?_
      fun _ _ _ => trivial)
  rintro _ t₂ ⟨hinserted, hidle⟩
  refine ensures_bind _ |>.mpr ((enduring_still.finish defer t₂
    ⟨hinserted.prepared.canonical, hidle⟩).imp (fun _ t₃ h₃ => ?_) fun _ _ _ => trivial)
  rw [ensures_pure]
  exact ⟨_, _, h₃⟩

theorem ensures_untilRetirement (h : t.Awaits S cost) (hc : c.OverLayout) (w : Strength Rat) :
    Ensures (untilRetirement c w) t (fun result t' => ∀ a, result = some a → t'.Retirable a)
      fun _ _ => True := by
  refine ensures_bind _ |>.mpr ((h.ensures_createRow hc w).imp ?_ fun _ _ _ => trivial)
  rintro ⟨row, handle⟩ t₁ h₁
  refine ensures_bind _ |>.mpr (h₁.ensures_prepareFor.imp ?_ fun _ _ _ => trivial)
  intro row t₂ h₂
  split
  · exact nofun
  · next hneeds =>
    rw [Bool.or_eq_true, not_or] at hneeds
    refine ensures_map _ |>.mpr ((h₂.ensures_driveArtificial
      (Option.not_isSome_iff_eq_none.mp hneeds.1) hneeds.2).imp ?_ fun _ _ => id)
    rintro a t₃ ⟨-, hretirable⟩ _ ⟨⟩
    exact hretirable

end Awaits

/-! ## Removals -/

/-- A marker that stands in the row of a dummy takes the place of a dummy when it goes. -/
def Shields (t : Tableau Rat) (marker : Key) : Prop :=
  (∃ e ∈ t.rows.entries, e.1.dummy = true ∧ e.2.coefficientFor marker ≠ 0) →
    (t.markerLeaving? marker).all (·.dummy) = true

instance (t : Tableau Rat) (marker : Key) : Decidable (t.Shields marker) :=
  inferInstanceAs (Decidable (_ → _))

theorem Shields.of_rows (h : t.Shields marker) (hrows : t'.rows = t.rows) : t'.Shields marker := by
  unfold Shields markerLeaving? column at h ⊢
  rwa [hrows]

/-- Nothing but a dummy stands in the row of an idle dummy. -/
theorem DummiesIdle.shields (h : t.DummiesIdle) (hmarker : ¬ marker.dummy = true) :
    t.Shields marker := by
  rintro ⟨e, he, hdummy, hne⟩
  exact absurd ((h e.1 e.2 (Table.get?_eq_some_iff.mpr he) hdummy).2 marker hne) hmarker

/-- Dummies stay idle in a pivot in which a dummy leaves the basis. -/
theorem DummiesIdle.pivot_dummy (h : t.DummiesIdle) (hr : t.Represents S cost)
    (hrow : t.rows.get? leaving = some row) (hcoefficient : row.coefficientFor entering ≠ 0)
    (hleaving : leaving.dummy = true) : (t.pivot entering leaving).DummiesIdle := by
  have hproper := hr.proper_row hrow
  have hself := hr.coefficientFor_self hrow
  obtain ⟨hconstant, hdummies⟩ := h leaving row hrow hleaving
  have hentered : ((t.eraseRow leaving).enter entering
      (row.solveForPair leaving entering)).DummiesIdle := by
    refine Idle.enter (h.eraseRow leaving) (fun _ _ => (hr.eraseRow leaving).proper_row)
      fun _ => ⟨?_, ?_⟩
    · rw [Row.constant_solveForPair hcoefficient hself, hconstant, neg_zero, zero_div]
    · intro k hk
      by_contra hnot
      have hne : k ≠ leaving := by
        rintro rfl
        exact hnot hleaving
      have hzero : row.coefficientFor k = 0 := by_contra fun hne => hnot (hdummies k hne)
      rw [Row.coefficientFor_solveForPair hproper hcoefficient hself, if_neg hne, hzero, neg_zero,
        zero_div, ite_self] at hk
      exact hk rfl
  rw [pivot_eq hrow]
  exact hentered.of_eq rfl

/-- What a marker takes the place of comes into every row that the marker stands in. -/
theorem DummiesIdle.dummy_of_exchange (hr : t.Represents S cost)
    (hrow : t.rows.get? leaving = some row) (hcoefficient : row.coefficientFor marker ≠ 0)
    {d : Key} {other : Row Rat} (hother : t.rows.get? d = some other) (hd : d.dummy = true)
    (hmention : other.coefficientFor marker ≠ 0)
    (hidle : ((t.pivot marker leaving).eraseRow marker).DummiesIdle) : leaving.dummy = true := by
  by_contra hnot
  have hbasic := hr.isBasic_entering hrow hcoefficient
  have hdmarker : d ≠ marker := ne_of_get? hother hbasic
  have hdleaving : d ≠ leaving := by
    rintro rfl
    exact hnot hd
  have hnew : ((t.pivot marker leaving).eraseRow marker).rows.get? d =
      some (other.substitute (.unit marker) (row.solveForPair leaving marker)) := by
    rw [get?_eraseRow, if_neg hdmarker, get?_pivot hrow, if_neg hdmarker, if_neg hdleaving, hother,
      Option.map_some]
  refine hnot ((hidle d _ hnew hd).2 leaving ?_)
  have hne := hr.entering_ne_leaving hrow hcoefficient
  rw [Row.coefficientFor_substitute (hr.proper_row hother),
    Row.coefficientFor_solveForPair (hr.proper_row hrow) hcoefficient (hr.coefficientFor_self hrow),
    if_neg hne.symm, if_neg hne.symm, if_pos rfl,
    (hr.over_row hother).coefficientFor_basic (hr.proper_row hother) (isBasic_of_get? hrow),
    zero_add]
  exact mul_ne_zero hmention (div_ne_zero one_ne_zero hcoefficient)

/-- A marker that goes leaves the dummies idle if and only if it shields them. -/
theorem DummiesIdle.dropMarker_iff (h : t.DummiesIdle) (hr : t.Represents S cost) :
    (t.dropMarker marker).DummiesIdle ↔ t.Shields marker := by
  unfold Tableau.dropMarker
  split
  · next hbasic =>
    refine iff_of_true (h.eraseRow marker) ?_
    rintro ⟨e, he, -, hne⟩
    have hrow := Table.get?_eq_some_iff.mpr he
    exact absurd ((hr.over_row hrow).coefficientFor_basic (hr.proper_row hrow) hbasic) hne
  · split
    · next leaving hleaving =>
      obtain ⟨row, hrow, hcoefficient, -⟩ := markerLeaving?_eq_some hleaving
      constructor
      · rintro hidle ⟨e, he, hdummy, hne⟩
        rw [hleaving, Option.all_some]
        exact DummiesIdle.dummy_of_exchange hr hrow hcoefficient (Table.get?_eq_some_iff.mpr he)
          hdummy hne hidle
      · intro hshields
        by_cases hmention : ∃ e ∈ t.rows.entries, e.1.dummy = true ∧ e.2.coefficientFor marker ≠ 0
        · have hdummy := hshields hmention
          rw [hleaving, Option.all_some] at hdummy
          exact (h.pivot_dummy hr hrow hcoefficient hdummy).eraseRow _
        · refine h.exchange hr hrow fun k row' hrow' hk => by_contra fun hne => hmention ?_
          exact ⟨(k, row'), Table.get?_eq_some_iff.mp hrow', hk, hne⟩
    · next hnone =>
      refine iff_of_true h ?_
      rintro ⟨e, he, -, hne⟩
      exact absurd (markerLeaving?_eq_none hnone (Table.get?_eq_some_iff.mpr he)) hne

theorem Still.ensures_removeConstraint (h : t.Still S cost) (hartificial : t.artificial = none)
    (hsplits : handle.Splits S S' cost' f) (hcost : ∀ v, cost v = cost' v + handle.price w v)
    (hshields : t.Shields handle.marker) (defer : Bool) :
    Ensures (removeConstraint handle w defer) t (fun _ t' => t'.Still S' cost') fun _ _ => True := by
  have hprepared : t.Prepared False False S cost :=
    ⟨h.canonical, False.elim, False.elim, False.elim⟩
  obtain ⟨hdropped, hrows, hnone⟩ := hprepared.dropHandlePrices hsplits hcost
  have hcanonical := (hdropped.dropMarker False.elim (hnone.trans hartificial) hsplits
    False.elim).1.canonical
  have hidle := ((h.idle.of_eq hrows).dropMarker_iff hdropped.represents).mpr
    (hshields.of_rows hrows)
  exact ensures_removeConstraint_of ((enduring_still.finish defer).upholds _ ⟨hcanonical, hidle⟩)

/-! ## Targets -/

theorem Still.targetShift (h : t.Still S cost) (hmoves : handle.Moves minus delta S S' cost) :
    (t.shift (t.targetShift handle.marker minus delta)).Still S' cost :=
  ⟨⟨h.canonical.represents.targetShift hmoves, h.canonical.layered.shift,
    h.canonical.queue.reviseAndQueue _⟩, h.idle.targetShift hmoves.fits.1 hmoves.fits.2.2⟩

theorem Still.ensures_suggest (h : t.Still S cost) (hmoves : handle.Moves minus delta S S' cost) :
    Ensures (suggest handle delta) t (fun _ t' => t'.Still S' cost) fun _ _ => True :=
  ensures_suggest_of_moves hmoves (fun _ => h) (fun _ => enduring_still.solve.upholds t h)
    fun _ h => enduring_still.dualOptimize.upholds _ (h.targetShift hmoves)

end Tableau

/-! ## Runs -/

theorem Operation.OverLayout.lawful {o : Operation Rat} (ho : o.OverLayout) : o.Lawful False := by
  cases o with
  | insert c w => exact ⟨ho, False.elim⟩
  | startEdit x w => exact False.elim
  | _ => trivial

namespace Solver

variable {config : Config Rat} {s : Solver Rat} {os : List (Operation Rat)} {o : Operation Rat}
  {h : Handle} {r : Record Rat}

/-- If an operation removes a constraint, the marker that goes shields the dummies. -/
def Shields (s : Solver Rat) : Operation Rat → Prop
  | .remove h => (s.step (.remove h)).1 = .ok (.removed true) → s.state.tableau.Shields h.marker
  | _ => True

instance (s : Solver Rat) : (o : Operation Rat) → Decidable (s.Shields o)
  | .remove _ => inferInstanceAs (Decidable (_ → _))
  | .insert _ _ | .startEdit _ _ | .stopEdit _ | .suggest _ _ | .openBatch | .closeBatch | .clear =>
    isTrue trivial

/-- Every removal of a run shields the dummies. -/
def Shielding (s : Solver Rat) : List (Operation Rat) → Prop
  | [] => True
  | o :: os => s.Shields o ∧ Shielding (s.step o).2 os

instance decidableShielding (s : Solver Rat) : (os : List (Operation Rat)) →
    Decidable (s.Shielding os)
  | [] => isTrue trivial
  | o :: os =>
    have := decidableShielding (s.step o).2 os
    inferInstanceAs (Decidable (_ ∧ _))

theorem settled_still : Settled fun t => ∃ S cost, t.Still S cost where
  empty epsilon limit := by
    have hsound : (Tableau.empty epsilon limit).Sound False False (fun _ => True) fun _ => 0 :=
      Tableau.sound_empty False.elim limit
    exact ⟨_, _, hsound.prepared.canonical, fun _ _ hrow => by cases hrow⟩
  begin _ := fun ⟨S, cost, h⟩ =>
    ⟨S, cost, Tableau.enduring_still.of_eq h rfl rfl (.inl rfl) le_rfl fun _ => id⟩
  commit _ := fun ⟨S, cost, h⟩ =>
    ⟨S, cost, Tableau.enduring_still.of_eq h rfl rfl (.inl rfl) le_rfl fun _ => id⟩
  solve t := fun ⟨S, cost, h⟩ =>
    (Tableau.enduring_still.solve.upholds t h).imp (fun _ _ h' => ⟨S, cost, h'⟩) fun _ _ => id

theorem Sound.opening (hs : s.Sound False False) :
    s.opening.Sound False False s.state.Equations s.state.charge :=
  hs.state.tableau.of_noted s.opening_cases

/-- Constraints may come to the tableau of a sound solver whose dummies are idle. -/
theorem Sound.awaits (hs : s.Sound False False) (hidle : s.opening.DummiesIdle)
    (hepsilon : s.opening.epsilon = 0) :
    s.opening.Awaits s.state.Equations s.state.charge where
  sound := hs.opening
  idle := hidle
  epsilon := hepsilon
  plain _ hk := hs.state.ignores_of_rowless hk
  unknown _ hk := hs.state.costIgnores_of_not_known fun hknown => hk fun hinternal =>
    (nextId_opening s).symm ▸ hknown hinternal

theorem Sound.still_opening (hs : s.Sound False False) (hidle : s.opening.DummiesIdle) :
    s.opening.Still s.state.Equations s.state.charge :=
  ⟨hs.opening.prepared.canonical, hidle⟩

/-- A removal of a constraint that is held is done where the tableau has done it. -/
theorem step_remove_of_ok {t : Tableau Rat} (hr : s.state.constraints.get? h = some r)
    (hok : Tableau.removeConstraint h r.strength s.isBatching s.opening = .ok () t) :
    (s.step (.remove h)).1 = .ok (.removed true) := by
  rw [step, perform, outcome_map, outcome_remove hr]
  simp [Attempt.outcome, guarded_eq, hok, Except.map, Except.toBool]

/-- Every operation keeps the dummies idle, if a removal shields them. -/
theorem still_step (hepsilon : config.epsilon = 0) (hrest : s.AtRest config)
    (hs : s.poisoned = false → s.Sound False False)
    (hstill : s.Has fun t => ∃ S cost, t.Still S cost) (ho : o.OverLayout)
    (hshields : s.Shields o) : (s.step o).2.Has fun t => ∃ S cost, t.Still S cost := by
  refine hstill.step_of settled_still hrest ?_ ?_ ?_
  · rintro c w hadded hpoisoned ⟨_, _, h⟩
    exact ((hs hpoisoned).awaits h.idle (hrest.epsilon_opening.trans hepsilon)).ensures_addConstraint
      (ho.added hadded) w _
  · rintro h r hremoves hr hpoisoned ⟨_, _, hidle⟩
    have hstate := (hs hpoisoned).state
    have hopening := (hs hpoisoned).still_opening hidle.idle
    have hremoved : s.opening.Shields h.marker →
        Ensures (Tableau.removeConstraint h r.strength s.isBatching) s.opening
          (fun _ t => ∃ S cost, t.Still S cost) fun _ _ => True := fun hopens =>
      (hopening.ensures_removeConstraint hrest.artificial_opening (hstate.tidy.splits hr)
        (State.charge_unregister hr) hopens _).imp (fun _ _ h' => ⟨_, _, h'⟩) fun _ _ => id
    cases o with
    | remove h' =>
      cases hremoves
      unfold Ensures
      cases hresult : Tableau.removeConstraint h r.strength s.isBatching s.opening with
      | error cause t => trivial
      | ok _ t =>
        have hmarker := (hshields (step_remove_of_ok hr hresult)).of_rows (rows_opening s)
        exact (hremoved hmarker).of_eq_ok hresult
    | stopEdit x =>
      -- The marker of an edit variable is an error, and no dummy has one in its row
      obtain ⟨e, he, rfl⟩ := Option.map_eq_some_iff.mp hremoves
      obtain ⟨minus, hmoves⟩ := hstate.tidy.moves he 0
      refine hremoved (hidle.idle.shields fun hdummy => ?_)
      cases (of_decide_eq_true hdummy : e.handle.marker.kind = .dummy).symm.trans hmoves.fits.1
    | _ => cases hremoves
  · rintro h delta hmoved hpoisoned ⟨_, _, hidle⟩
    have hstate := (hs hpoisoned).state
    cases o with
    | suggest x target =>
      obtain ⟨e, he, rfl⟩ := Option.map_eq_some_iff.mp hmoved
      obtain ⟨minus, hmoves⟩ := hstate.tidy.moves he (delta + e.target)
      rw [add_sub_cancel_right] at hmoves
      exact (((hs hpoisoned).still_opening hidle.idle).ensures_suggest hmoves).imp
        (fun _ _ h' => ⟨_, _, h'⟩) fun _ _ => id
    | _ => cases hmoved

/-- A run whose removals shield the dummies keeps them idle. -/
theorem still_run_of_still (hepsilon : config.epsilon = 0) (hos : ∀ o ∈ os, o.OverLayout)
    (hrest : s.AtRest config) (hs : s.poisoned = false → s.Sound False False)
    (hstill : s.Has fun t => ∃ S cost, t.Still S cost) (hshielding : s.Shielding os) :
    (s.run os).Has fun t => ∃ S cost, t.Still S cost := by
  induction os generalizing s with
  | nil => exact hstill
  | cons o os ih =>
    have ho := hos o List.mem_cons_self
    exact ih (fun o ho => hos o (List.mem_cons_of_mem _ ho)) ((keeps_perform o).outcome hrest)
      (sound_step False.elim hrest hs ho.lawful False.elim)
      (still_step hepsilon hrest hs hstill ho hshielding.1) hshielding.2

/-- In rational arithmetic without a tolerance, let every removal of a run shield the dummies, and
let the run leave the solver with values. Then the row of every basic dummy has dummies only and the
constant zero. So no constraint is refused after its artificial variable has been driven to zero:
where that variable is still basic, its row has the constant zero and a variable that may take its
place, and it leaves the basis. -/
theorem run_still (hepsilon : config.epsilon = 0) (hos : ∀ o ∈ os, o.OverLayout)
    (hshielding : (ofConfig config).Shielding os)
    (hpoisoned : ((ofConfig config).run os).poisoned = false) :
    (∀ k row, ((ofConfig config).run os).state.tableau.rows.get? k = some row → k.dummy = true →
      row.allDummies = true ∧ row.constant = 0) ∧
    ∀ (c : Constraint Rat) (w : Strength Rat) (a : Key) (t : Tableau Rat), c.OverLayout →
      Tableau.untilRetirement c w ((ofConfig config).run os).opening = .ok (some a) t →
      (∀ row, t.rows.get? a = some row → row.constant = 0 ∧ ∃ k, row.anyPivotable = some k) ∧
        ∃ t', Tableau.retireArtificial a t = .ok () t' := by
  have hrest : ((ofConfig config).run os).AtRest config := Reachable.atRest ⟨os, rfl⟩
  have hsound : ((ofConfig config).run os).Sound False False :=
    sound_run False.elim (fun o ho => (hos o ho).lawful) False.elim hpoisoned
  obtain ⟨⟨S, cost, hstill⟩, -⟩ := still_run_of_still hepsilon hos (atRest_ofConfig config)
    (fun _ => sound_ofConfig False.elim)
    (fun _ => ⟨settled_still.empty _ _, fun _ _ hopen => by cases hopen⟩)
    hshielding hpoisoned
  refine ⟨fun k row hrow hk => ?_, fun c w a t hc huntil => ?_⟩
  · obtain ⟨hconstant, hdummies⟩ := hstill.idle k row hrow hk
    exact ⟨(Row.allDummies_iff (hstill.canonical.represents.proper_row hrow)).mpr hdummies,
      hconstant⟩
  · have hretirable := (hsound.awaits (hstill.idle.of_eq (rows_opening _))
      (hrest.epsilon_opening.trans hepsilon)).ensures_untilRetirement hc w
    unfold Ensures at hretirable
    rw [huntil] at hretirable
    have hretirable := hretirable a rfl
    exact ⟨hretirable, hretirable.exists_eq_ok⟩

/-- A variable is held at zero twice, set free once and held again. Two others may not be
negative. -/
def shielded : List (Operation Rat) :=
  [.insert ((Variable.external 0).heldAt 0) .required,
    .insert ((Variable.external 0).heldAt 0) .required,
    .remove ⟨.ofIndex .dummy false 0, none⟩,
    .insert ((Variable.external 0).heldAt 0) .required,
    .insert (.ofFormulas (.var (.external 1)) .greaterOrEqual (.number 0)) .required,
    .insert (.ofFormulas (.var (.external 2)) .greaterOrEqual (.number 0)) .required]

/-- Two variables have the sum zero. -/
def vanishing : Constraint Rat :=
  .ofFormulas (.form ⟨[⟨.external 1, 1⟩, ⟨.external 2, 1⟩], 0⟩) .equal (.number 0)

/-- The marker that goes stands in the row of the second dummy, and takes its place. The third dummy
is basic and idle, and an artificial variable that is still basic leaves. -/
theorem run_still_shielded :
    (∃ row, ((ofConfig ⟨0, true, 100⟩).run shielded).state.tableau.rows.get?
        (.ofIndex .dummy false 2) = some row ∧ row.allDummies = true ∧ row.constant = 0) ∧
    ∃ t t', Tableau.untilRetirement vanishing .required
        ((ofConfig ⟨0, true, 100⟩).run shielded).opening =
          .ok (some (.ofIndex .artificial false 6)) t ∧
      t.isBasic (.ofIndex .artificial false 6) = true ∧
      Tableau.retireArtificial (.ofIndex .artificial false 6) t = .ok () t' := by
  have hlayout : ∀ o ∈ shielded, o.OverLayout := by
    intro o ho
    simp only [shielded, List.mem_cons, List.not_mem_nil, or_false] at ho
    rcases ho with rfl | rfl | rfl | rfl | rfl | rfl
    · exact Variable.overLayout_heldAt _ _
    · exact Variable.overLayout_heldAt _ _
    · trivial
    · exact Variable.overLayout_heldAt _ _
    · exact Constraint.overLayout_reduce _ _ _
    · exact Constraint.overLayout_reduce _ _ _
  obtain ⟨hidle, hretires⟩ := @run_still ⟨0, true, 100⟩ shielded rfl hlayout
    (by decide +kernel) (by decide +kernel)
  have hbasic : ((ofConfig ⟨0, true, 100⟩).run shielded).state.tableau.isBasic
      (.ofIndex .dummy false 2) = true := by decide +kernel
  obtain ⟨row, hrow⟩ := Tableau.isBasic_iff.mp hbasic
  have huntil : Tableau.untilRetirement vanishing .required
      ((ofConfig ⟨0, true, 100⟩).run shielded).opening =
        .ok (some (.ofIndex .artificial false 6)) _ := Attempt.eq_ok_of_outcome (by decide +kernel)
  obtain ⟨-, t', hretired⟩ :=
    hretires vanishing .required _ _ (Constraint.overLayout_reduce _ _ _) huntil
  exact ⟨⟨row, hrow, hidle _ row hrow rfl⟩, _, t', huntil, by decide +kernel, hretired⟩

/-- A variable is held at zero twice and may not be negative; then it is set free once. -/
def unshielded : List (Operation Rat) :=
  [.insert ((Variable.external 0).heldAt 0) .required,
    .insert ((Variable.external 0).heldAt 0) .required,
    .insert (.ofFormulas (.var (.external 0)) .greaterOrEqual (.number 0)) .required,
    .remove ⟨.ofIndex .dummy false 0, none⟩]

/-- The negation of a variable is zero. -/
def opposed : Constraint Rat :=
  .ofFormulas (.form ⟨[⟨.external 0, -1⟩], 0⟩) .equal (.number 0)

/-- The marker that goes stands in the row of the second dummy and takes the place of a slack, which
comes into that row. All constraints hold where the variable is zero, and so would its negation
being zero. Yet that is refused: the artificial variable is zero, and nothing may take its place. -/
theorem run_not_still :
    ((ofConfig ⟨0, true, 100⟩).run unshielded).poisoned = false ∧
    (((ofConfig ⟨0, true, 100⟩).run unshielded).state.tableau.rows.get?
      (.ofIndex .dummy false 1)).map (·.allDummies) = some false ∧
    (∃ t, Tableau.untilRetirement opposed .required
        ((ofConfig ⟨0, true, 100⟩).run unshielded).opening =
          .ok (some (.ofIndex .artificial false 4)) t ∧
      (t.rows.get? (.ofIndex .artificial false 4)).map
        (fun row => (row.constant, row.anyPivotable)) = some (0, none)) ∧
    (((ofConfig ⟨0, true, 100⟩).run unshielded).step (.insert opposed .required)).1 =
      .error .unsatisfiable ∧
    (∀ e ∈ ((ofConfig ⟨0, true, 100⟩).run unshielded).state.held, e.1.value (fun _ => 0) = 0) ∧
    opposed.value (fun _ => 0) = 0 := by
  have huntil : Tableau.untilRetirement opposed .required
      ((ofConfig ⟨0, true, 100⟩).run unshielded).opening =
        .ok (some (.ofIndex .artificial false 4)) _ := Attempt.eq_ok_of_outcome (by decide +kernel)
  exact ⟨by decide +kernel, by decide +kernel, ⟨_, huntil, by decide +kernel⟩, by decide +kernel,
    by decide +kernel, by decide +kernel⟩

end Solver

end Cassowary
